import TierTree.Proofs.Log.Disk
import TierTree.Proofs.Service.Directory
import TierTree.Proofs.Service.Restart

/-!
Saves that stop. The new checkpoint and the old log have edits in common until
the log is purged. They do not get in each other's way, so a save may stop
anywhere. As long as nothing goes wrong but that a new file cannot be made, a
service whose save was refused goes on as if nothing happened.
-/

namespace TierTree

/-- A step of a session where something may get in the way of a new log or a new
checkpoint. -/
inductive Step where
  | act (a : Action)
  | block (log vault : Bool)
  deriving DecidableEq, Repr

/-- The transaction of a step. -/
def Step.transaction? : Step → Option TransactionId
  | .act a => a.transaction?
  | .block _ _ => none

/-- A deployment with what gets in the way of a new log or a new checkpoint. -/
structure Site (J C : Type) extends Deployment J C where
  blockLog : Bool → J → J
  blockVault : Bool → C → C

namespace Site

/-- Nothing gets in the way in memory. -/
def inMemory : Site Ledger CheckpointSlot where
  toDeployment := .inMemory
  blockLog _ log := log
  blockVault _ vault := vault

/-- What is in the way of new files is still there after a restart. -/
def inFiles : Site LogFile CheckpointFile where
  toDeployment := { Deployment.inFiles with reread := LogFile.reload }
  blockLog blocked log := { log with blocked := blocked }
  blockVault blocked vault := { vault with blocked := blocked }

variable {J C : Type} [Journal J] [Vault C]

/-- Take a step. -/
def perform (d : Site J C) (x : Session J C) : Step → Attempt ServiceError (Session J C)
  | .act a => d.toDeployment.perform x a
  | .block log vault =>
      .ok ⟨{ x.service with
          log := d.blockLog log x.service.log
          vault := d.blockVault vault x.service.vault }, x.acknowledged⟩

/-- The session after steps in order, from empty storage on. -/
def run (d : Site J C) (config : Config) (steps : List Step) :
    Attempt ServiceError (Session J C) := do
  let s ← (Service.openOver config d.log d.vault).2
  steps.foldlM d.perform ⟨s, []⟩

/-- Whatever steps follow a session in which the transactions in `spent` took
place, they end with the tree that the acknowledged edits build, and this tree
comes back from what is stored, unless a counter is used up. -/
def GoesOn (d : Site J C) (x : Session J C) (spent : List TransactionId) : Prop :=
  ∀ steps : List Step, (∀ c, .act (.restart c) ∈ steps → c.Valid) →
    (steps.filterMap Step.transaction?).Nodup →
    (∀ id ∈ steps.filterMap Step.transaction?, id ∉ spent) →
    (∃ y, steps.foldlM d.perform x = .ok y ∧ Tree.build y.acknowledged = .ok y.service.tree ∧
      y.service.lastApplied.toNat = y.acknowledged.length ∧ d.toDeployment.Resumes y) ∨
    steps.foldlM d.perform x = .error (.fault .overflow)

/-- A save at the end of a session is safe wherever it stops: what is stored
there resumes the session, and this holds of what the save itself leaves. A save
that ends in an error leaves the tree, its number and the log as they were; then
as after any stop before the purge, the service goes on. -/
structure SavesSafely (d : Site J C) (x : Session J C) (spent : List TransactionId) : Prop where
  stops : ∀ log vault, x.service.StopsAt log vault →
    d.toDeployment.Resumes ⟨{ x.service with log := log, vault := vault }, x.acknowledged⟩
  ends : x.service.StopsAt x.service.save.1.log x.service.save.1.vault
  unpurged : ∀ vault, x.service.StopsAt x.service.log vault →
    d.GoesOn ⟨{ x.service with vault := vault }, x.acknowledged⟩ spent
  refused : ∀ s failure, x.service.save = (s, .error failure) →
    s.tree = x.service.tree ∧ s.lastApplied = x.service.lastApplied ∧ s.log = x.service.log ∧
      d.GoesOn ⟨s, x.acknowledged⟩ spent

/-- A site whose storage can be trusted whatever gets in the way. -/
structure Lawful [LawfulJournal J] (d : Site J C) : Prop extends
    Deployment.Lawful d.toDeployment where
  blockLog : ∀ {log records last purged used} blocked,
    LawfulJournal.Settled log records last purged used →
    LawfulJournal.Settled (d.blockLog blocked log) records last purged used
  blockVault : ∀ blocked vault, Vault.load (d.blockVault blocked vault) = Vault.load vault
  purge_of_error : ∀ {log log' : J} {records last purged used} {through : Txid}
    {failure : Failure StorageError}, LawfulJournal.Settled log records last purged used →
    Journal.purge log through = (log', .error failure) → log' = log

theorem inMemory_lawful : inMemory.Lawful where
  toLawful := Deployment.inMemory_lawful
  blockLog _ h := h
  blockVault _ _ := rfl
  purge_of_error _ := nofun

theorem inFiles_lawful : inFiles.Lawful where
  toLawful := { Deployment.inFiles_lawful with reread := LogFile.reload_settled }
  blockLog blocked h := LogFile.Settled.block h blocked
  blockVault _ _ := rfl
  purge_of_error h := LogFile.purge_of_error h.attached.opens

/-- A save that ends in an error has at most written the checkpoint. -/
theorem log_of_save_error [LawfulJournal J] {d : Site J C} (hLawful : d.Lawful)
    {s s' : Service J C} {last lost : Txid} {used : List TransactionId}
    (hDurable : s.Durable last lost used) {failure : Failure ServiceError}
    (h : s.save = (s', .error failure)) : s'.log = s.log := by
  obtain ⟨_, _, _, hSettled, _⟩ := hDurable.stored
  rcases s.save_cases with ⟨vault, cause, _, hSave⟩ | ⟨vault, log, failure | _, _, hPurge, hSave⟩
  · rw [hSave] at h
    cases h
    rfl
  · rw [hSave] at h
    cases h
    exact hLawful.purge_of_error hSettled hPurge
  · rw [hSave] at h
    cases h

open Deployment (Continues Ends Faithful)

section Steps
variable [LawfulJournal J] [LawfulVault C] {d : Site J C} {last lost : Txid}
  {used : List TransactionId} {x : Session J C}

theorem perform_spec (hLawful : d.Lawful) {step : Step}
    (hRestart : ∀ config, .act (.restart config) = step → config.Valid)
    (hFresh : ∀ id ∈ step.transaction?, id ∉ used) (h : x.service.Durable last lost used) :
    Continues x last lost (step.transaction?.toList ++ used) (d.perform x step) := by
  cases step with
  | act a =>
      exact Deployment.perform_spec hLawful.toLawful
        (fun config hSame => hRestart config (congrArg Step.act hSame)) hFresh h
  | block log vault =>
      have hStored := h.of_storage (hLawful.blockLog log) (hLawful.blockVault vault _)
      exact .inl ⟨_, rfl, last, .same rfl rfl, hStored⟩

theorem foldlM_perform (hLawful : d.Lawful) {steps : List Step}
    (hRestarts : ∀ c, .act (.restart c) ∈ steps → c.Valid)
    (hDistinct : (steps.filterMap Step.transaction?).Nodup)
    (hFresh : ∀ id ∈ steps.filterMap Step.transaction?, id ∉ used) (h : Faithful x used) :
    Ends (Faithful · (steps.filterMap Step.transaction? ++ used)) (steps.foldlM d.perform x) := by
  refine Deployment.foldlM_ends Faithful.mono
    (fun a hMem y spent hNew hHere => hHere.of_continues ?_) hDistinct hFresh h
  exact perform_spec hLawful (fun c hRestart => hRestarts c (hRestart ▸ hMem)) hNew hHere.durable

/-- Every session at a site is as it should be. -/
theorem run_spec (hLawful : d.Lawful) {config : Config} (hConfig : config.Valid)
    {steps : List Step} (hRestarts : ∀ c, .act (.restart c) ∈ steps → c.Valid)
    (hDistinct : (steps.filterMap Step.transaction?).Nodup) :
    Ends (Faithful · (steps.filterMap Step.transaction?)) (d.run config steps) := by
  obtain ⟨s, hOpen, hFirst⟩ := Deployment.begin_spec hLawful.toLawful hConfig
  have hRun := foldlM_perform hLawful hRestarts hDistinct (fun _ _ hUsed => by cases hUsed) hFirst
  rw [List.append_nil] at hRun
  rw [run, hOpen]
  exact hRun

theorem goesOn (hLawful : d.Lawful) (h : Faithful x used) : d.GoesOn x used := by
  intro steps hRestarts hDistinct hFresh
  rcases foldlM_perform hLawful hRestarts hDistinct hFresh h with ⟨y, hRun, hFaithful⟩ | hFault
  · exact .inl ⟨y, hRun, hFaithful.built, hFaithful.counted, hFaithful.resumes hLawful.toLawful⟩
  · exact .inr hFault

theorem savesSafely (hLawful : d.Lawful) (h : Faithful x used) : d.SavesSafely x used := by
  constructor
  case stops =>
    intro log vault hStop
    have hStored := h.durable.stopsAt hStop
    have hThere : Faithful ⟨{ x.service with log := log, vault := vault }, x.acknowledged⟩ used :=
      h.advance (.same rfl rfl) hStored
    exact hThere.resumes hLawful.toLawful
  case ends => exact x.service.stopsAt_save
  case unpurged =>
    intro vault hStop
    exact goesOn hLawful (h.advance (.same rfl rfl) (h.durable.stopsAt hStop))
  case refused =>
    intro s failure hSave
    have hLog := log_of_save_error hLawful h.durable hSave
    have hSaved := h.durable.save_spec
    rw [hSave] at hSaved
    cases failure with
    | fault f => exact hSaved.elim
    | refused cause =>
        obtain ⟨hTree, hLast, hDurable⟩ := hSaved
        exact ⟨hTree, hLast, hLog, goesOn hLawful (h.advance (.same hTree hLast) hDurable)⟩

end Steps

end Site

end TierTree
