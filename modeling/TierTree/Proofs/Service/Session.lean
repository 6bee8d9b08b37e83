import TierTree.Proofs.Log.File
import TierTree.Proofs.Service.Call

/-!
Sessions. A service is called, saved and restarted in any order, while its
storage may begin to fail and recover again, and its user keeps a list of the
edits that were acknowledged.
-/

namespace TierTree

/-- A step of a session. -/
inductive Action where
  | call (id : TransactionId) (c : Call)
  | save
  | restart (config : Config)
  | disturb (plan : FailurePlan)
  deriving DecidableEq, Repr

/-- The transaction of a step. -/
def Action.transaction? : Action → Option TransactionId
  | .call id _ => some id
  | _ => none

/-- A service and the edits it has acknowledged, in order. -/
structure Session (J C : Type) where
  service : Service J C
  acknowledged : List Edit

/-- Where services run: the storage they find at first, what a restart reads
of a log, and how failures are planned. -/
structure Deployment (J C : Type) where
  log : J
  vault : C
  reread : J → J
  disturb : FailurePlan → J → J

/-- Log and checkpoint are handed over in memory, which does not fail. -/
def Deployment.inMemory : Deployment Ledger CheckpointSlot where
  log := .empty
  vault := .empty
  reread log := log
  disturb _ log := log

/-- Log and checkpoint are read again from their files. Appends to the log may
fail, and what is left of them can be cut off. -/
def Deployment.inFiles : Deployment LogFile CheckpointFile where
  log := .load []
  vault := ⟨none, false⟩
  reread log := .load log.stored
  disturb plan log := { log with sink := log.sink.setPlan plan false }

namespace Deployment

variable {J C : Type} [Journal J] [Vault C]

/-- Open a service over the storage that another one leaves. -/
def reopen (d : Deployment J C) (config : Config) (s : Service J C) :
    Attempt ServiceError (Service J C) :=
  (Service.openOver config (d.reread s.log) s.vault).2

/-- Where a configuration says where the files are, a service that is opened
from them is one that reads them again. -/
theorem openFiles_eq_reopen {config : Config} {dir : String} (h : config.storageDir = some dir)
    (s : FileService) :
    (FileService.openFiles config (some s.log.stored) false s.vault).2 =
      inFiles.reopen config s := by
  simp only [FileService.openFiles, h]
  rfl

/-- A service without files yet starts from empty ones. -/
theorem openFiles_eq_openOver {config : Config} {dir : String} (h : config.storageDir = some dir) :
    FileService.openFiles config none false ⟨none, false⟩ =
      Service.openOver config inFiles.log inFiles.vault := by
  simp only [FileService.openFiles, h]
  rfl

/-- Take a step. A refused call or save is a step as well, a fault is not. -/
def perform (d : Deployment J C) (x : Session J C) : Action → Attempt ServiceError (Session J C)
  | .call id c =>
      match x.service.call id c with
      | (s, .ok true) => .ok ⟨s, x.acknowledged ++ (x.service.request c).toList⟩
      | (s, .ok false) => .ok ⟨s, x.acknowledged⟩
      | (s, .error (.refused _)) => .ok ⟨s, x.acknowledged⟩
      | (_, .error (.fault f)) => .error (.fault f)
  | .save =>
      match x.service.save with
      | (_, .error (.fault f)) => .error (.fault f)
      | (s, _) => .ok ⟨s, x.acknowledged⟩
  | .restart config => (d.reopen config x.service).map (⟨·, x.acknowledged⟩)
  | .disturb plan =>
      .ok ⟨{ x.service with log := d.disturb plan x.service.log }, x.acknowledged⟩

/-- The session after steps in order, from empty storage on. -/
def run (d : Deployment J C) (config : Config) (actions : List Action) :
    Attempt ServiceError (Session J C) := do
  let s ← (Service.openOver config d.log d.vault).2
  actions.foldlM d.perform ⟨s, []⟩

/-- A deployment whose storage can be trusted. -/
structure Lawful [LawfulJournal J] (d : Deployment J C) : Prop where
  log : LawfulJournal.Settled d.log [] 0 0 []
  vault : Vault.load d.vault = .ok none
  reread : ∀ {log records last purged used}, LawfulJournal.Settled log records last purged used →
    LawfulJournal.Settled (d.reread log) records last purged used
  disturb : ∀ {log records last purged used} plan,
    LawfulJournal.Settled log records last purged used →
    LawfulJournal.Settled (d.disturb plan log) records last purged used

theorem inMemory_lawful : inMemory.Lawful where
  log := Ledger.empty_settled
  vault := rfl
  reread h := h
  disturb _ h := h

theorem inFiles_lawful : inFiles.Lawful where
  log := ⟨Ledger.empty_settled, [], ⟨.nil, rfl, rfl, rfl⟩, Ledger.empty_settled⟩
  vault := rfl
  reread h := LogFile.load_settled h false
  disturb plan h := by
    obtain ⟨hLedger, disk, hHolds, hDisk⟩ := h
    exact ⟨hLedger, disk, ⟨hHolds.bytes, rfl, hHolds.attached.here, hHolds.attached.opens⟩, hDisk⟩

end Deployment

/-- The tree that edits build, if every one of them can be made. -/
def Tree.build (edits : List Edit) : Attempt TreeError Tree :=
  edits.foldlM (fun t e => (t.apply e).map (·.2)) .new

theorem Tree.build_append (edits : List Edit) (e : Edit) {t later : Tree} {node : NodeId}
    (h : build edits = .ok t) (hApply : t.apply e = .ok (node, later)) :
    build (edits ++ [e]) = .ok later := by
  rw [build, List.foldlM_append]
  refine bind_eq_ok_iff.mpr ⟨t, h, ?_⟩
  rw [List.foldlM_cons, hApply]
  rfl

namespace Deployment

variable {J C : Type} {last lost : Txid} {used : List TransactionId} {x : Session J C}

/-- What a step makes of a session whose log goes up to `last`: a service with
the same tree and number, or with one more edit that is acknowledged under the
next number. -/
inductive Advance (x : Session J C) (last : Txid) : Session J C → Txid → Prop where
  | same {s : Service J C} : s.tree = x.service.tree → s.lastApplied = x.service.lastApplied →
      Advance x last ⟨s, x.acknowledged⟩ last
  | made {s : Service J C} {e : Edit} {node : NodeId} :
      x.service.tree.apply e = .ok (node, s.tree) → successor last = .ok s.lastApplied →
      Advance x last ⟨s, x.acknowledged ++ [e]⟩ s.lastApplied

theorem Advance.le {y : Session J C} {next : Txid} (h : Advance x last y next) : last ≤ next := by
  cases h with
  | same => exact UInt64.le_refl _
  | made _ hNext => exact UInt64.le_of_lt (lt_of_successor hNext)

/-- A result with a property, unless a counter is used up. -/
def Ends (P : Session J C → Prop) (result : Attempt ServiceError (Session J C)) : Prop :=
  (∃ x, result = .ok x ∧ P x) ∨ result = .error (.fault .overflow)

theorem Ends.imp {P Q : Session J C → Prop} {result : Attempt ServiceError (Session J C)}
    (h : Ends P result) (hImp : ∀ x, P x → Q x) : Ends Q result :=
  h.imp_left fun ⟨x, hDone, hHolds⟩ => ⟨x, hDone, hImp x hHolds⟩

/-- A result with a property, or a failure that may happen. -/
def EndsOr (Fails : Failure ServiceError → Prop) (P : Session J C → Prop)
    (result : Attempt ServiceError (Session J C)) : Prop :=
  (∃ x, result = .ok x ∧ P x) ∨ ∃ failure, result = .error failure ∧ Fails failure

theorem endsOr_overflow_iff {P : Session J C → Prop} {result : Attempt ServiceError (Session J C)} :
    EndsOr (· = .fault .overflow) P result ↔ Ends P result := by
  simp only [EndsOr, Ends, exists_eq_right]

section Fold
variable {α : Type} {step : Session J C → α → Attempt ServiceError (Session J C)}
  {transaction? : α → Option TransactionId} {steps : List α}
  {Inv : Session J C → List TransactionId → Prop} {Fails : Failure ServiceError → Prop}

/-- What steps of any kind keep one by one is kept by all of them in order, if no
two of them share a transaction. -/
theorem foldlM_endsOr (hMono : ∀ {x used later}, Inv x used → used ⊆ later → Inv x later)
    (hStep : ∀ a ∈ steps, ∀ x used, (∀ id ∈ transaction? a, id ∉ used) → Inv x used →
      EndsOr Fails (Inv · ((transaction? a).toList ++ used)) (step x a))
    (hDistinct : (steps.filterMap transaction?).Nodup)
    (hFresh : ∀ id ∈ steps.filterMap transaction?, id ∉ used) (h : Inv x used) :
    EndsOr Fails (Inv · (steps.filterMap transaction? ++ used)) (steps.foldlM step x) := by
  induction steps generalizing x used with
  | nil => exact .inl ⟨x, rfl, h⟩
  | cons a rest ih =>
      have hIds : (a :: rest).filterMap transaction? =
          (transaction? a).toList ++ rest.filterMap transaction? := by
        rw [List.filterMap_cons]
        cases transaction? a <;> rfl
      rw [hIds] at hDistinct hFresh ⊢
      -- What this step has used up is not asked for by a later one.
      obtain ⟨_, hDistinctRest, hApart⟩ := List.nodup_append.mp hDistinct
      have hFirst : ∀ id ∈ transaction? a, id ∉ used := fun id hId =>
        hFresh id (List.mem_append_left _ (Option.mem_toList.mpr hId))
      rw [List.foldlM_cons]
      rcases hStep a List.mem_cons_self x used hFirst h with
        ⟨y, hDone, hInv⟩ | ⟨failure, hFailed, hFails⟩
      · rw [hDone]
        have hFreshRest : ∀ id ∈ rest.filterMap transaction?,
            id ∉ (transaction? a).toList ++ used := by
          intro id hMem hUsed
          rcases List.mem_append.mp hUsed with hHere | hBefore
          · exact hApart id hHere id hMem rfl
          · exact hFresh id (List.mem_append_right _ hMem) hBefore
        refine (ih (fun b hMem => hStep b (List.mem_cons_of_mem _ hMem)) hDistinctRest hFreshRest
          hInv).imp_left fun ⟨z, hRun, hLast⟩ => ⟨z, hRun, hMono hLast ?_⟩
        rw [← List.append_assoc]
        exact (List.perm_append_comm.append_right used).subset
      · rw [hFailed]
        exact .inr ⟨failure, rfl, hFails⟩

theorem foldlM_ends (hMono : ∀ {x used later}, Inv x used → used ⊆ later → Inv x later)
    (hStep : ∀ a ∈ steps, ∀ x used, (∀ id ∈ transaction? a, id ∉ used) → Inv x used →
      Ends (Inv · ((transaction? a).toList ++ used)) (step x a))
    (hDistinct : (steps.filterMap transaction?).Nodup)
    (hFresh : ∀ id ∈ steps.filterMap transaction?, id ∉ used) (h : Inv x used) :
    Ends (Inv · (steps.filterMap transaction? ++ used)) (steps.foldlM step x) :=
  endsOr_overflow_iff.mp (foldlM_endsOr hMono
    (fun a hMem x used hNew hHere => endsOr_overflow_iff.mpr (hStep a hMem x used hNew hHere))
    hDistinct hFresh h)

end Fold

variable [Journal J] [Vault C] [LawfulJournal J] {d : Deployment J C}

/-- What a step comes to: the session goes on, and its storage rebuilds the tree. -/
def Continues (x : Session J C) (last lost : Txid) (used : List TransactionId) :
    Attempt ServiceError (Session J C) → Prop :=
  Ends fun y => ∃ next, Advance x last y next ∧ y.service.Durable next lost used

section Steps

/-- Opening over what a service leaves gives its tree and its number. -/
theorem reopen_spec (hLawful : d.Lawful) {s : Service J C} (h : s.Durable last lost used)
    {config : Config} (hValid : config.Valid) :
    ∃ s', d.reopen config s = .ok s' ∧ s'.tree = s.tree ∧ s'.lastApplied = s.lastApplied ∧
      s'.Durable last lost used := by
  obtain ⟨s', hOpen, hRest⟩ := h.openOver_spec hValid fun _ _ _ hSettled => hLawful.reread hSettled
  exact ⟨s', by rw [reopen, hOpen], hRest⟩

theorem perform_call (h : x.service.Durable last lost used) {id : TransactionId}
    (hFresh : id ∉ used) (c : Call) :
    Continues x last lost (id :: used) (d.perform x (.call id c)) := by
  have hCall := h.call_spec hFresh c
  rw [perform]
  generalize x.service.call id c = outcome at hCall ⊢
  obtain ⟨s, (cause | f) | (_ | _)⟩ := outcome
  · obtain ⟨hTree, hLast, hDurable⟩ := hCall
    exact .inl ⟨_, rfl, last, .same hTree hLast, hDurable⟩
  · exact .inr (congrArg (Except.error ∘ Failure.fault) hCall)
  · obtain ⟨hTree, hLast, hDurable⟩ := hCall
    exact .inl ⟨_, rfl, last, .same hTree hLast, hDurable⟩
  · obtain ⟨e, node, hRequest, hApply, hNext, hDurable⟩ := hCall
    refine .inl ⟨_, rfl, s.lastApplied, ?_, hDurable⟩
    rw [hRequest]
    exact .made hApply hNext

theorem perform_save [LawfulVault C] (h : x.service.Durable last lost used) :
    Continues x last lost used (d.perform x .save) := by
  have hSave := h.save_spec
  rw [perform]
  generalize x.service.save = outcome at hSave ⊢
  obtain ⟨s, (cause | f) | txid⟩ := outcome
  · exact .inl ⟨_, rfl, last, .same hSave.1 hSave.2.1, hSave.2.2⟩
  · exact absurd hSave id
  · exact .inl ⟨_, rfl, last, .same hSave.1 hSave.2.1, hSave.2.2⟩

theorem perform_restart (hLawful : d.Lawful) (h : x.service.Durable last lost used)
    {config : Config} (hValid : config.Valid) :
    Continues x last lost used (d.perform x (.restart config)) := by
  obtain ⟨s, hOpen, hTree, hLast, hDurable⟩ := reopen_spec hLawful h hValid
  exact .inl ⟨_, by rw [perform, hOpen]; rfl, last, .same hTree hLast, hDurable⟩

theorem perform_disturb (hLawful : d.Lawful) (h : x.service.Durable last lost used)
    (plan : FailurePlan) : Continues x last lost used (d.perform x (.disturb plan)) :=
  .inl ⟨_, rfl, last, .same rfl rfl, h.of_storage (hLawful.disturb plan) rfl⟩

/-- A session whose storage rebuilds its tree goes on by every step. -/
theorem perform_spec [LawfulVault C] (hLawful : d.Lawful) {action : Action}
    (hRestart : ∀ config, .restart config = action → config.Valid)
    (hFresh : ∀ id ∈ action.transaction?, id ∉ used) (h : x.service.Durable last lost used) :
    Continues x last lost (action.transaction?.toList ++ used) (d.perform x action) := by
  cases action with
  | call id c => exact perform_call h (hFresh id rfl) c
  | save => exact perform_save h
  | restart config => exact perform_restart hLawful h (hRestart config rfl)
  | disturb plan => exact perform_disturb hLawful h plan

end Steps

section Faithful

/-- The tree is the one that the acknowledged edits build, each of them under a
number of its own, and the storage rebuilds it. Nothing was purged that is in
no checkpoint. -/
structure Faithful (x : Session J C) (used : List TransactionId) : Prop where
  durable : x.service.Durable x.service.lastApplied 0 used
  built : Tree.build x.acknowledged = .ok x.service.tree
  counted : x.service.lastApplied.toNat = x.acknowledged.length

theorem Faithful.mono {later : List TransactionId} (h : Faithful x used) (hUsed : used ⊆ later) :
    Faithful x later :=
  { h with durable := h.durable.mono hUsed }

theorem Faithful.advance {y : Session J C} {next : Txid} {later : List TransactionId}
    (h : Faithful x used) (hAdvance : Advance x x.service.lastApplied y next)
    (hDurable : y.service.Durable next 0 later) : Faithful y later := by
  cases hAdvance with
  | same hTree hLast => exact ⟨hLast ▸ hDurable, hTree ▸ h.built, hLast ▸ h.counted⟩
  | made hApply hNext =>
      refine ⟨hDurable, Tree.build_append _ _ h.built hApply, ?_⟩
      rw [toNat_of_successor hNext, h.counted]
      simp

/-- A session that is as it should be goes on as one. -/
theorem Faithful.of_continues {later : List TransactionId}
    {result : Attempt ServiceError (Session J C)} (h : Faithful x used)
    (hStep : Continues x x.service.lastApplied 0 later result) :
    Ends (Faithful · later) result :=
  hStep.imp fun _ ⟨_, hAdvance, hDurable⟩ => h.advance hAdvance hDurable

/-- A service that is opened over empty storage begins a session that is as it
should be. -/
theorem begin_spec (hLawful : d.Lawful) {config : Config} (hConfig : config.Valid) :
    ∃ s, (Service.openOver config d.log d.vault).2 = .ok s ∧ Faithful ⟨s, []⟩ [] := by
  obtain ⟨s, hOpen, hTree, hLast, hDurable⟩ :=
    Service.openOver_unrecorded hConfig hLawful.log hLawful.vault
  exact ⟨s, by rw [hOpen], hLast ▸ hDurable, hTree ▸ rfl, by rw [hLast]; rfl⟩

/-- Every session from empty storage on is as it should be. -/
theorem run_spec [LawfulVault C] (hLawful : d.Lawful) {config : Config} (hConfig : config.Valid)
    {actions : List Action} (hRestarts : ∀ c, .restart c ∈ actions → c.Valid)
    (hDistinct : (actions.filterMap Action.transaction?).Nodup) :
    ∃ used, Ends (Faithful · used) (d.run config actions) := by
  obtain ⟨s, hOpen, hFirst⟩ := begin_spec hLawful hConfig
  refine ⟨actions.filterMap Action.transaction? ++ [], ?_⟩
  rw [run, hOpen]
  refine foldlM_ends Faithful.mono (fun a hMem x used hFresh h => h.of_continues ?_) hDistinct
    (fun _ _ hUsed => by cases hUsed) hFirst
  exact perform_spec hLawful (fun c hRestart => hRestarts c (hRestart ▸ hMem)) hFresh h.durable

end Faithful

end Deployment

end TierTree
