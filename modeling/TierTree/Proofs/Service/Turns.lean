import TierTree.Proofs.Service.Reopening

/-!
Saves of services whose log may not be opened again. As long as a log that has
taken the place of the old one can be opened, a save may stop anywhere and
nothing is lost. Where it cannot, nothing is lost by the save either, but a
service that goes on acknowledges edits that are in no file, until a later save
puts them into a checkpoint.
-/

namespace TierTree

/-- A step of a session, or a change of whether a new log can be opened once it
has taken the place of the old one. -/
inductive Turn where
  | step (s : Step)
  | deny (denied : Bool)
  deriving DecidableEq, Repr

namespace Turn

def step? : Turn → Option Step
  | .step s => some s
  | .deny _ => none

/-- The transaction of a turn. -/
def transaction? (t : Turn) : Option TransactionId := t.step?.bind Step.transaction?

end Turn

namespace Site

open Deployment (EndsOr)

/-- Take a turn. -/
def turn (x : Session LogFile CheckpointFile) :
    Turn → Attempt ServiceError (Session LogFile CheckpointFile)
  | .step s => inFiles.perform x s
  | .deny denied =>
      .ok ⟨{ x.service with log := { x.service.log with denied := denied } }, x.acknowledged⟩

/-- The session in files after turns in order, from empty storage on. -/
def runTurns (config : Config) (turns : List Turn) :
    Attempt ServiceError (Session LogFile CheckpointFile) := do
  let s ← (Service.openOver config inFiles.log inFiles.vault).2
  turns.foldlM turn ⟨s, []⟩

/-- How turns can break off: a counter is used up, or a restart cannot bring its
log up to its checkpoint. -/
def Breaks (turns : List Turn) (failure : Failure ServiceError) : Prop :=
  failure = .fault .overflow ∨
    (∃ c, .step (.act (.restart c)) ∈ turns) ∧ ∃ cause, failure = .refused (.storage (.io cause))

/-- Whatever turns follow a session in which the transactions in `spent` took
place, what is stored behind them resumes the session that they lead to just if
its service is not stale. -/
def ResumesAmid (x : Session LogFile CheckpointFile) (spent : List TransactionId) : Prop :=
  ∀ turns : List Turn, (∀ c, .step (.act (.restart c)) ∈ turns → c.Valid) →
    (turns.filterMap Turn.transaction?).Nodup →
    (∀ id ∈ turns.filterMap Turn.transaction?, id ∉ spent) →
    EndsOr (Breaks turns)
      (fun y => Deployment.inFiles.Resumes y ↔ ¬ FileService.Stale y.service) (turns.foldlM turn x)

/-- A save at the end of a session where new logs could not always be opened.
What is stored where it stops resumes the session if the service was not stale,
or if the checkpoint is written. An error leaves the tree, its number and what the
log has as they were, but the purged log may be in the place of the one that is
written to; then whatever is acknowledged next makes the service stale. A stale
service is taken back to its checkpoint. -/
structure SavesAmid (x : Session LogFile CheckpointFile) (spent : List TransactionId) : Prop where
  resumes : Deployment.inFiles.Resumes x ↔ ¬ FileService.Stale x.service
  stale : FileService.Stale x.service → ∀ config : Config, config.Valid →
    ∃ s, Deployment.inFiles.reopen config x.service = .ok s ∧
      Service.restore x.service.vault = .ok (s.tree, s.lastApplied) ∧
      s.lastApplied < x.service.lastApplied
  stops : ∀ log vault, x.service.StopsAt log vault →
    (Deployment.inFiles.Resumes
        ⟨{ x.service with log := log, vault := vault }, x.acknowledged⟩ ↔
      (FileService.Stale x.service →
        Vault.save x.service.vault x.service.checkpoint = (vault, .ok ())))
  ends : x.service.StopsAt x.service.save.1.log x.service.save.1.vault
  cuts : x.service.log.replaced = none → FileService.SurvivesCuts x.service
  answered : ∀ s txid, x.service.save = (s, .ok txid) → s.log.replaced = none
  refused : ∀ s failure, x.service.save = (s, .error failure) →
    s.tree = x.service.tree ∧ s.lastApplied = x.service.lastApplied ∧
      (s.log = x.service.log ∨
        failure = .refused (.storage (.io .reopen)) ∧
          s.log = { x.service.log with replaced := some (Frame.encodeAll
            (x.service.log.ledger.purgedEntries x.service.lastApplied)) }) ∧
      ResumesAmid ⟨s, x.acknowledged⟩ spent
  lost : x.service.log.replaced ≠ none → ∀ id, id ∉ spent → ∀ c s',
    x.service.call id c = (s', .ok true) → FileService.Stale s'

section Turns
variable {x : Session LogFile CheckpointFile} {used : List TransactionId} {turns : List Turn}

theorem perform_call_afloat (h : FileService.Afloat x.service used) {id : TransactionId}
    (hFresh : id ∉ used) (c : Call) :
    EndsOr (Breaks turns) (fun y => FileService.Afloat y.service (id :: used))
      (Deployment.inFiles.perform x (.call id c)) := by
  rw [Deployment.perform]
  rcases h.call hFresh c with ⟨hAfloat, _, hNoFault⟩ | hFault
  · generalize x.service.call id c = outcome at hAfloat hNoFault ⊢
    obtain ⟨s, (cause | f) | (_ | _)⟩ := outcome
    · exact .inl ⟨_, rfl, hAfloat⟩
    · exact absurd rfl (hNoFault f)
    · exact .inl ⟨_, rfl, hAfloat⟩
    · exact .inl ⟨_, rfl, hAfloat⟩
  · generalize x.service.call id c = outcome at hFault ⊢
    obtain ⟨s, result⟩ := outcome
    obtain rfl : result = .error (.fault .overflow) := hFault
    exact .inr ⟨_, rfl, .inl rfl⟩

theorem perform_save_afloat (h : FileService.Afloat x.service used) :
    EndsOr (Breaks turns) (fun y => FileService.Afloat y.service used)
      (Deployment.inFiles.perform x .save) := by
  have hStop := h.stopsAt x.service.stopsAt_save
  rw [Deployment.perform]
  rcases FileService.save_outcome x.service with
    ⟨_, _, hSave, _⟩ | ⟨_, _, hSave⟩ | ⟨_, _, hSave, _⟩ <;>
    rw [hSave] at hStop ⊢ <;>
    exact .inl ⟨_, rfl, hStop⟩

/-- Every turn leaves the service of a session afloat. -/
theorem turn_afloat (h : FileService.Afloat x.service used)
    (hRestarts : ∀ c, .step (.act (.restart c)) ∈ turns → c.Valid) {t : Turn} (hMem : t ∈ turns)
    (hFresh : ∀ id ∈ t.transaction?, id ∉ used) :
    EndsOr (Breaks turns)
      (fun y => FileService.Afloat y.service (t.transaction?.toList ++ used)) (turn x t) := by
  cases t with
  | deny denied =>
      exact .inl ⟨_, rfl, h.goes_on (h.durable.of_storage id rfl) rfl rfl (List.Subset.refl _)⟩
  | step s =>
      cases s with
      | block log vault =>
          exact .inl ⟨_, rfl, h.goes_on (h.durable.of_storage id rfl) rfl rfl (List.Subset.refl _)⟩
      | act a =>
          cases a with
          | disturb plan =>
              have hStored := h.durable.of_storage (Deployment.inFiles_lawful.disturb plan) rfl
              exact .inl ⟨_, rfl, h.goes_on hStored rfl rfl (List.Subset.refl _)⟩
          | save => exact perform_save_afloat h
          | call id c => exact perform_call_afloat h (hFresh id rfl) c
          | restart config =>
              obtain ⟨s, hOpen, hDurable, _⟩ := h.reopen_spec (hRestarts config hMem)
              rcases @FileService.openOver_freed _ x.service.log.reload _ _ rfl hOpen with
                ⟨s', hDone, hHere, rfl⟩ | ⟨cause, hRefused⟩
              · exact .inl ⟨_, congrArg (Except.map _) hDone,
                  FileService.afloat_of_here hHere hDurable⟩
              · exact .inr ⟨_, congrArg (Except.map _) hRefused,
                  .inr ⟨⟨config, hMem⟩, cause, rfl⟩⟩

theorem foldlM_turn_afloat (h : FileService.Afloat x.service used)
    (hRestarts : ∀ c, .step (.act (.restart c)) ∈ turns → c.Valid)
    (hDistinct : (turns.filterMap Turn.transaction?).Nodup)
    (hFresh : ∀ id ∈ turns.filterMap Turn.transaction?, id ∉ used) :
    EndsOr (Breaks turns)
      (fun y => FileService.Afloat y.service (turns.filterMap Turn.transaction? ++ used))
      (turns.foldlM turn x) :=
  @Deployment.foldlM_endsOr _ _ used x _ turn Turn.transaction? turns
    (fun y spent => FileService.Afloat y.service spent) (Breaks turns)
    (fun h hUsed => h.mono hUsed)
    (fun _ hMem _ _ hNew h => turn_afloat h hRestarts hMem hNew) hDistinct hFresh h

/-- Every session ends with a service that is afloat. -/
theorem runTurns_afloat {config : Config} (hConfig : config.Valid)
    (hRestarts : ∀ c, .step (.act (.restart c)) ∈ turns → c.Valid)
    (hDistinct : (turns.filterMap Turn.transaction?).Nodup) :
    EndsOr (Breaks turns)
      (fun x => FileService.Afloat x.service (turns.filterMap Turn.transaction?))
      (runTurns config turns) := by
  obtain ⟨s, hOpen, hFirst⟩ := Deployment.begin_spec inFiles_lawful.toLawful hConfig
  have hAfloat : FileService.Afloat s [] := FileService.afloat_of_durable hFirst.durable
  have hRun := @foldlM_turn_afloat ⟨s, []⟩ _ _ hAfloat hRestarts hDistinct
    (fun _ _ hUsed => by cases hUsed)
  rw [List.append_nil] at hRun
  rw [runTurns, hOpen]
  exact hRun

/-- A session comes back from its files just if its service is not stale. -/
theorem resumes_iff (h : FileService.Afloat x.service used) :
    Deployment.inFiles.Resumes x ↔ ¬ FileService.Stale x.service := by
  constructor
  case mp =>
    rintro hResumes ⟨hReplaced, base, covered, hRestore, hBehind⟩
    have hConfig : Config.default.Valid := ⟨rfl, _, rfl⟩
    obtain ⟨s, hOpen, _, hLast⟩ := hResumes .default hConfig
    obtain ⟨s', hSame, _, _, hCheckpoint⟩ := h.reopen_spec hConfig
    cases hOpen.symm.trans hSame
    cases hRestore.symm.trans (hCheckpoint hReplaced)
    exact UInt64.lt_irrefl _ (hLast ▸ hBehind)
  case mpr =>
    intro hCurrent config hValid
    obtain ⟨s, hOpen, _, hHere, hCheckpoint⟩ := h.reopen_spec hValid
    by_cases hReplaced : x.service.log.replaced = none
    · exact ⟨s, hOpen, hHere hReplaced⟩
    · -- The checkpoint that is opened is not behind the tree, so it is the tree.
      obtain ⟨hCovered, hTree⟩ := h.of_restore (hCheckpoint hReplaced)
      have hLast : s.lastApplied = x.service.lastApplied :=
        UInt64.le_antisymm hCovered (UInt64.not_lt.mp fun hBehind =>
          hCurrent ⟨hReplaced, _, _, hCheckpoint hReplaced, hBehind⟩)
      exact ⟨s, hOpen, hTree hLast, hLast⟩

theorem reopen_of_stale (h : FileService.Afloat x.service used)
    (hStale : FileService.Stale x.service) {config : Config} (hValid : config.Valid) :
    ∃ s, Deployment.inFiles.reopen config x.service = .ok s ∧
      Service.restore x.service.vault = .ok (s.tree, s.lastApplied) ∧
      s.lastApplied < x.service.lastApplied := by
  obtain ⟨hReplaced, base, covered, hRestore, hBehind⟩ := hStale
  obtain ⟨s, hOpen, _, _, hCheckpoint⟩ := h.reopen_spec hValid
  have hSame := hCheckpoint hReplaced
  cases hRestore.symm.trans hSame
  exact ⟨s, hOpen, hSame, hBehind⟩

theorem resumesAmid (h : FileService.Afloat x.service used) : ResumesAmid x used :=
  fun _ hRestarts hDistinct hFresh =>
    (foldlM_turn_afloat h hRestarts hDistinct hFresh).imp_left
      fun ⟨y, hRun, hThere⟩ => ⟨y, hRun, resumes_iff hThere⟩

/-- All of it follows from what is stored where the save stops. -/
theorem savesAmid (h : FileService.Afloat x.service used) : SavesAmid x used := by
  have hEnds := h.stopsAt x.service.stopsAt_save
  constructor
  case resumes => exact resumes_iff h
  case stale => exact fun hStale _ hValid => reopen_of_stale h hStale hValid
  case stops =>
    intro log vault hStop
    refine Iff.trans (resumes_iff (h.stopsAt hStop)) ?_
    exact (not_congr (h.stale_stopsAt_iff hStop)).trans not_and_not_right
  case ends => exact x.service.stopsAt_save
  case cuts => exact fun hHere => FileService.survivesCuts hHere h.durable
  case answered =>
    intro s txid hSave
    rcases FileService.save_outcome x.service with
      ⟨_, _, hDone, _⟩ | ⟨_, _, hDone⟩ | ⟨_, log, hDone, hHere⟩ <;>
      cases hSave.symm.trans hDone
    exact hHere
  case refused =>
    intro s failure hSave
    rcases FileService.save_outcome x.service with
      ⟨_, _, hDone, _⟩ | ⟨_, _, hDone⟩ | ⟨_, _, hDone, _⟩ <;>
      cases hSave.symm.trans hDone <;>
      rw [hDone] at hEnds
    · exact ⟨rfl, rfl, .inl rfl, resumesAmid hEnds⟩
    · exact ⟨rfl, rfl, .inr ⟨rfl, rfl⟩, resumesAmid hEnds⟩
  case lost => exact fun hReplaced _ hFresh _ _ hCall => h.stale_of_call hReplaced hFresh hCall

end Turns

variable (config : Config) (turns : List Turn)

theorem steps_valid (hRestarts : ∀ c, .step (.act (.restart c)) ∈ turns → c.Valid) (c : Config)
    (hMem : .act (.restart c) ∈ turns.filterMap Turn.step?) : c.Valid := by
  obtain ⟨t, hTurn, hStep⟩ := List.mem_filterMap.mp hMem
  cases t with
  | deny denied => cases hStep
  | step s =>
      cases hStep
      exact hRestarts c hTurn

/-- A save is safe at every place where it may stop, as long as a log that has
taken the place of the old one can be opened. Whatever was called, saved and
restarted in a session before, and whatever got in the way, a service opened over
what a save leaves has the tree and the number from before the save, in memory and
in files, there even if the save ends between two bytes of a draft. A save that ends
in an error leaves a service that goes on, and nothing that is acknowledged after it
is lost. Where such a log may not be opened, the session comes back from every place
where a save stops and from everything that follows, unless its service is stale. As
with restarts, no two calls share a transaction. -/
theorem save_stops_safely_unless_stale (hConfig : config.Valid)
    (hRestarts : ∀ c, .step (.act (.restart c)) ∈ turns → c.Valid)
    (hDistinct : (turns.filterMap Turn.transaction?).Nodup) :
    let steps := turns.filterMap Turn.step?
    let spent := turns.filterMap Turn.transaction?
    ((∃ x, inMemory.run config steps = .ok x ∧ inMemory.SavesSafely x spent) ∨
      inMemory.run config steps = .error (.fault .overflow)) ∧
    ((∃ x, inFiles.run config steps = .ok x ∧ inFiles.SavesSafely x spent ∧
        FileService.SurvivesCuts x.service) ∨
      inFiles.run config steps = .error (.fault .overflow)) ∧
    ((∃ x, runTurns config turns = .ok x ∧ SavesAmid x spent) ∨
      ∃ failure, runTurns config turns = .error failure ∧ Breaks turns failure) := by
  intro steps spent
  have hSpent : steps.filterMap Step.transaction? = spent := List.filterMap_filterMap
  have hSteps := steps_valid turns hRestarts
  have hOnce : (steps.filterMap Step.transaction?).Nodup := hSpent ▸ hDistinct
  refine ⟨?memory, ?files, ?amid⟩
  case memory =>
    rcases run_spec inMemory_lawful hConfig hSteps hOnce with ⟨x, hRun, h⟩ | hFault
    · exact .inl ⟨x, hRun, hSpent ▸ savesSafely inMemory_lawful h⟩
    · exact .inr hFault
  case files =>
    rcases run_spec inFiles_lawful hConfig hSteps hOnce with ⟨x, hRun, h⟩ | hFault
    · exact .inl ⟨x, hRun, hSpent ▸ savesSafely inFiles_lawful h, FileService.survivesCuts
        h.durable.attached.here (FileService.afloat_of_durable h.durable).durable⟩
    · exact .inr hFault
  case amid =>
    exact (runTurns_afloat hConfig hRestarts hDistinct).imp_left
      fun ⟨x, hRun, h⟩ => ⟨x, hRun, savesAmid h⟩

/-- The log of the first save is not opened, so the file that is made next would be
lost; the next save stops before the purge, but with a checkpoint that has the file.
Where every log is opened, a deletion that is acknowledged after this save comes back
as well. -/
theorem save_stops_safely_before_purge :
    let turns : List Turn := [.step (.act (.call ⟨⟨1⟩⟩ (.mkdirs "/a"))), .deny true,
      .step (.act .save), .step (.act (.call ⟨⟨2⟩⟩ (.createFile "/a/f" none))), .deny false,
      .step (.block true false)]
    (∃ x s y, inFiles.run .default (turns.filterMap Turn.step?) = .ok x ∧
      x.service.save = (s, .error (.refused (.storage (.io .blocked)))) ∧
      s.log = x.service.log ∧
      [.act (.call ⟨⟨3⟩⟩ (.delete "/a/f" false))].foldlM inFiles.perform ⟨s, x.acknowledged⟩ =
        .ok y ∧
      y.acknowledged = [.mkdirs "/a", .createFile "/a/f" 3, .delete "/a/f" false] ∧
      inFiles.Resumes y) ∧
    ∃ x s, runTurns .default turns = .ok x ∧
      x.acknowledged = [.mkdirs "/a", .createFile "/a/f" 3] ∧
      (Deployment.inFiles.Resumes x ↔ ¬ FileService.Stale x.service) ∧
      x.service.save = (s, .error (.refused (.storage (.io .blocked)))) ∧
      Deployment.inFiles.Resumes ⟨{ x.service with log := s.log, vault := s.vault },
        x.acknowledged⟩ := by
  intro turns
  have hConfig : Config.default.Valid := ⟨rfl, _, rfl⟩
  obtain ⟨_, hFiles, hAmid⟩ :=
    save_stops_safely_unless_stale .default turns hConfig (by simp [turns]) (by decide)
  constructor
  · obtain ⟨x, hRun, s, hSave, y, hLater, hEdits⟩ : ∃ x,
        inFiles.run .default (turns.filterMap Turn.step?) = .ok x ∧
        ∃ s, x.service.save = (s, .error (.refused (.storage (.io .blocked)))) ∧
        ∃ y, [Step.act (.call ⟨⟨3⟩⟩ (.delete "/a/f" false))].foldlM inFiles.perform
          ⟨s, x.acknowledged⟩ = .ok y ∧
        y.acknowledged = [.mkdirs "/a", .createFile "/a/f" 3, .delete "/a/f" false] :=
      ⟨_, rfl, _, rfl, _, rfl, rfl⟩
    rw [hRun] at hFiles
    obtain ⟨_, ⟨⟩, hSafe, _⟩ := hFiles.resolve_right nofun
    obtain ⟨_, _, hLog, hGoesOn⟩ := hSafe.refused s _ hSave
    have hFurther := hGoesOn [.act (.call ⟨⟨3⟩⟩ (.delete "/a/f" false))] (by simp) (by decide)
      (by decide)
    rw [hLater] at hFurther
    obtain ⟨_, ⟨⟩, _, _, hResumes⟩ := hFurther.resolve_right nofun
    exact ⟨x, s, y, hRun, hSave, hLog, hLater, hEdits, hResumes⟩
  · obtain ⟨x, hRun, hEdits, s, hSave, hVault⟩ : ∃ x, runTurns .default turns = .ok x ∧
        x.acknowledged = [.mkdirs "/a", .createFile "/a/f" 3] ∧
        ∃ s, x.service.save = (s, .error (.refused (.storage (.io .blocked)))) ∧
        Vault.save x.service.vault x.service.checkpoint = (s.vault, .ok ()) :=
      ⟨_, rfl, rfl, _, rfl, rfl⟩
    rw [hRun] at hAmid
    obtain ⟨_, ⟨⟩, hSafe⟩ := hAmid.resolve_right nofun
    have hEnds := hSafe.ends
    rw [hSave] at hEnds
    exact ⟨x, s, hRun, hEdits, hSafe.resumes, hSave,
      (hSafe.stops _ _ hEnds).mpr fun _ => hVault⟩

/-- A directory is made, and the purged log is not opened where it is saved. A second one is
acknowledged after that, and a service that is opened again has the first one only. -/
theorem edit_lost_behind_unopened_log :
    let before : List Turn := [.step (.act (.call ⟨⟨1⟩⟩ (.mkdirs "/a"))), .deny true]
    ∃ x y s, runTurns .default before = .ok x ∧
      x.service.save.2 = .error (.refused (.storage (.io .reopen))) ∧
      runTurns .default (before ++
        [.step (.act .save), .step (.act (.call ⟨⟨2⟩⟩ (.mkdirs "/b")))]) = .ok y ∧
      y.acknowledged = [.mkdirs "/a", .mkdirs "/b"] ∧ y.service.lastApplied = 2 ∧
      Deployment.inFiles.reopen .default y.service = .ok s ∧ s.lastApplied = 1 ∧
      s.tree = x.service.tree := by
  intro before
  have hConfig : Config.default.Valid := ⟨rfl, _, rfl⟩
  obtain ⟨x, hBefore, hApplied, hRefused, y, hRun, hEdits, hLast, hReplaced, hVault⟩ : ∃ x,
      runTurns .default before = .ok x ∧ x.service.lastApplied = 1 ∧
      x.service.save.2 = .error (.refused (.storage (.io .reopen))) ∧
      ∃ y, runTurns .default (before ++
        [.step (.act .save), .step (.act (.call ⟨⟨2⟩⟩ (.mkdirs "/b")))]) = .ok y ∧
      y.acknowledged = [.mkdirs "/a", .mkdirs "/b"] ∧ y.service.lastApplied = 2 ∧
      y.service.log.replaced.isSome ∧
      Vault.save x.service.vault x.service.checkpoint = (y.service.vault, .ok ()) :=
    ⟨_, rfl, rfl, rfl, _, rfl, rfl, rfl, rfl, rfl⟩
  have hFirst := @runTurns_afloat before .default hConfig (by simp [before]) (by decide)
  have hSecond := @runTurns_afloat (before ++
    [.step (.act .save), .step (.act (.call ⟨⟨2⟩⟩ (.mkdirs "/b")))]) .default hConfig
    (by simp [before]) (by decide)
  rw [hBefore] at hFirst
  rw [hRun] at hSecond
  obtain ⟨_, ⟨⟩, hThere⟩ := hFirst.resolve_right nofun
  obtain ⟨_, ⟨⟩, hHere⟩ := hSecond.resolve_right nofun
  have hRestore := Service.restore_of_saved hThere.durable.sound hVault
  have hStale : FileService.Stale y.service := by
    refine ⟨Option.isSome_iff_ne_none.mp hReplaced, _, _, hRestore, ?_⟩
    show x.service.lastApplied < y.service.lastApplied
    rw [hApplied, hLast]
    decide
  obtain ⟨s, hOpen, hFound, _⟩ := reopen_of_stale hHere hStale hConfig
  obtain ⟨hTree, hNumber⟩ := Prod.mk.inj (Except.ok.inj (hFound.symm.trans hRestore))
  exact ⟨x, y, s, hBefore, hRefused, hRun, hEdits, hLast, hOpen, hNumber.trans hApplied, hTree⟩

end Site

end TierTree
