import TierTree.Proofs.Log.Mirror
import TierTree.Proofs.Service.Save

/-!
Purged edits. What a service has dropped from its log is in its checkpoint, so
nothing is missing where both of them are found again. That they belong together
is not checked: where the checkpoint is lost, a service is opened without the
edits that were purged.
-/

namespace TierTree

namespace Service

variable {J C : Type} [Journal J] [Vault C] {s s' : Service J C} {vault : C}

/-- The checkpoint covers every edit that was purged from a log with these
entries. Where there is none, nothing was purged. -/
def CoversPurged (vault : C) (entries : List LogEntry) : Prop :=
  ∃ base covered, restore vault = .ok (base, covered) ∧
    ∀ txid, .checkpoint txid ∈ entries → txid ≤ covered

variable [LawfulJournal J] {last lost : Txid} {used : List TransactionId}

/-- Where no edit has been lost, the log marks nothing as purged that is not in
the checkpoint. -/
theorem Durable.marks (h : s.Durable last 0 used) :
    ∃ records base covered, LawfulJournal.Settled s.log records last covered used ∧
      restore s.vault = .ok (base, covered) := by
  obtain ⟨records, base, covered, hSettled, hRestore, _⟩ := h.stored
  rw [max_of_le UInt64.zero_le] at hSettled
  exact ⟨records, base, covered, hSettled, hRestore⟩

/-- A save that answers leaves no record in the log. -/
theorem Durable.settled_of_saved [LawfulVault C] (h : s.Durable last lost used) {txid : Txid}
    (hSave : s.save = (s', .ok txid)) :
    ∃ next purged, LawfulJournal.Settled s'.log [] next purged used := by
  obtain ⟨records, hSettled, hBounded⟩ := h.settled
  have hPurged := LawfulJournal.purge_spec hSettled hBounded (right_le_max _ _)
  rcases s.save_cases with ⟨_, _, _, hCase⟩ | ⟨_, log, failure | _, _, hPurge, hCase⟩
  · rw [hCase] at hSave
    cases hSave
  · rw [hCase] at hSave
    cases hSave
  · rw [hCase] at hSave
    cases hSave
    rw [hPurge] at hPurged
    exact ⟨_, _, hPurged⟩

end Service

namespace Site

open Deployment (Faithful)
open Service (CoversPurged)

section Sessions
variable {J C : Type} [Journal J] [Vault C] [LawfulJournal J] [LawfulVault C] {d : Site J C}
  {x : Session J C} {s : Service J C} {used : List TransactionId} {config : Config} {vault : C}

/-- Where a checkpoint is lost after a save, a service is opened with a new tree. -/
theorem reopen_of_lost (hLawful : d.Lawful) (h : Faithful x used) {txid : Txid}
    (hSave : x.service.save = (s, .ok txid)) (hLost : Vault.load vault = .ok none)
    (hValid : config.Valid) :
    ∃ s', d.reopen config { s with vault := vault } = .ok s' ∧ s'.tree = .new ∧
      s'.lastApplied = 0 := by
  obtain ⟨next, purged, hSettled⟩ := h.durable.settled_of_saved hSave
  obtain ⟨s', hOpen, hTree, hApplied, _⟩ :=
    Service.openOver_unrecorded hValid (hLawful.reread hSettled) hLost
  exact ⟨s', congrArg Prod.snd hOpen, hTree, hApplied⟩

end Sessions

variable (config : Config) (steps : List Step)

/-- The storage of a service is never short of an edit. Whatever was called, saved
and restarted in a session, and whatever got in the way, wherever a save stops:
what was purged from the log that is found there is in the checkpoint that is
found beside it, in memory and in files. -/
theorem checkpoint_covers_purged (hConfig : config.Valid)
    (hRestarts : ∀ c, .act (.restart c) ∈ steps → c.Valid)
    (hDistinct : (steps.filterMap Step.transaction?).Nodup) :
    ((∃ x, inMemory.run config steps = .ok x ∧ ∀ log vault, x.service.StopsAt log vault →
        CoversPurged vault log.entries) ∨
      inMemory.run config steps = .error (.fault .overflow)) ∧
    ((∃ x, inFiles.run config steps = .ok x ∧ ∀ log vault, x.service.StopsAt log vault →
        CoversPurged vault (LogFile.load log.sink.bytes).ledger.entries) ∨
      inFiles.run config steps = .error (.fault .overflow)) := by
  constructor
  · refine (run_spec inMemory_lawful hConfig hRestarts hDistinct).imp_left ?_
    rintro ⟨x, hRun, hFaithful⟩
    refine ⟨x, hRun, fun log vault hStop => ?_⟩
    obtain ⟨records, base, covered, hSettled, hRestore⟩ := (hFaithful.durable.stopsAt hStop).marks
    exact ⟨base, covered, hRestore, hSettled.marked⟩
  · refine (run_spec inFiles_lawful hConfig hRestarts hDistinct).imp_left ?_
    rintro ⟨x, hRun, hFaithful⟩
    refine ⟨x, hRun, fun log vault hStop => ?_⟩
    obtain ⟨records, base, covered, hSettled, hRestore⟩ := (hFaithful.durable.stopsAt hStop).marks
    have hHere : log.replaced = none := (LogFile.Settled.attached hSettled).here
    rw [← LogFile.stored_of_here hHere]
    exact ⟨base, covered, hRestore, (LogFile.load_settled hSettled false).ledger.marked⟩

/-- A save was refused after its checkpoint was written, and one that was
answered is followed by another edit. -/
theorem checkpoint_covers_purged_between_saves :
    ∃ x, inFiles.run .default [.act (.call ⟨⟨1⟩⟩ (.mkdirs "/a")), .act .save,
        .act (.call ⟨⟨2⟩⟩ (.createFile "/a/f" none)), .block true false, .act .save] = .ok x ∧
      x.acknowledged = [.mkdirs "/a", .createFile "/a/f" 3] ∧
      CoversPurged x.service.vault
        (LogFile.load x.service.log.sink.bytes).ledger.entries := by
  have hConfig : Config.default.Valid := ⟨rfl, _, rfl⟩
  obtain ⟨x, hRun, hCovers⟩ := (checkpoint_covers_purged .default
    [.act (.call ⟨⟨1⟩⟩ (.mkdirs "/a")), .act .save, .act (.call ⟨⟨2⟩⟩ (.createFile "/a/f" none)),
      .block true false, .act .save] hConfig (by simp) (by decide)).2.resolve_right nofun
  have hAcknowledged : x.acknowledged = [.mkdirs "/a", .createFile "/a/f" 3] := by
    cases hRun
    rfl
  exact ⟨x, hRun, hAcknowledged, hCovers _ _ .before⟩

/-- That a checkpoint is lost is not noticed. After any session that ends with a
save, a service is opened over the log alone, and every edit that was saved is
missing from it. -/
theorem lost_checkpoint_unnoticed (hConfig : config.Valid)
    (hRestarts : ∀ c, .act (.restart c) ∈ steps → c.Valid)
    (hDistinct : (steps.filterMap Step.transaction?).Nodup) :
    (∀ x s txid, inMemory.run config steps = .ok x → x.service.save = (s, .ok txid) →
      ∀ c : Config, c.Valid → ∃ s', inMemory.reopen c { s with vault := .empty } = .ok s' ∧
        s'.tree = .new ∧ s'.lastApplied = 0) ∧
    ∀ x s txid, inFiles.run config steps = .ok x → x.service.save = (s, .ok txid) →
      ∀ c : Config, c.Valid → ∀ blocked, ∃ s',
        inFiles.reopen c { s with vault := ⟨none, blocked⟩ } = .ok s' ∧
        s'.tree = .new ∧ s'.lastApplied = 0 := by
  constructor
  · intro x s txid hRun hSave c hValid
    obtain ⟨_, hSame, hFaithful⟩ | hFault := run_spec inMemory_lawful hConfig hRestarts hDistinct
    · cases hRun.symm.trans hSame
      exact reopen_of_lost inMemory_lawful hFaithful hSave rfl hValid
    · cases hRun.symm.trans hFault
  · intro x s txid hRun hSave c hValid blocked
    obtain ⟨_, hSame, hFaithful⟩ | hFault := run_spec inFiles_lawful hConfig hRestarts hDistinct
    · cases hRun.symm.trans hSame
      exact reopen_of_lost inFiles_lawful hFaithful hSave rfl hValid
    · cases hRun.symm.trans hFault

/-- A directory is made and saved. Without the checkpoint, a service is opened
over a log that marks the edit as purged, and the directory is not there. -/
theorem purged_edit_passed_over :
    ∃ x s s', inFiles.run .default [.act (.call ⟨⟨1⟩⟩ (.mkdirs "/a"))] = .ok x ∧
      x.service.save = (s, .ok 1) ∧
      .checkpoint 1 ∈ (LogFile.load s.log.sink.bytes).ledger.entries ∧
      inFiles.reopen .default { s with vault := ⟨none, false⟩ } = .ok s' ∧ s'.tree = .new ∧
      ¬ CoversPurged (⟨none, false⟩ : CheckpointFile)
        (LogFile.load s.log.sink.bytes).ledger.entries := by
  obtain ⟨x, s, hRun, hSave, hPurge, hPurged⟩ : ∃ x s,
      inFiles.run .default [.act (.call ⟨⟨1⟩⟩ (.mkdirs "/a"))] = .ok x ∧
      x.service.save = (s, .ok 1) ∧ Journal.purge x.service.log 1 = (s.log, .ok ()) ∧
      x.service.log.ledger.purgedEntries 1 = [.checkpoint 1] :=
    ⟨_, _, rfl, rfl, rfl, rfl⟩
  have hConfig : Config.default.Valid := ⟨rfl, _, rfl⟩
  have hMark : .checkpoint 1 ∈ (LogFile.load s.log.sink.bytes).ledger.entries := by
    rw [LogFile.entries_load, LogFile.purge_of_ok hPurge, hPurged, Frame.readAll_encodeAll]
    exact List.mem_cons_self
  obtain ⟨s', hOpen, hTree, _⟩ := (lost_checkpoint_unnoticed .default
    [.act (.call ⟨⟨1⟩⟩ (.mkdirs "/a"))] hConfig (by simp) (by decide)).2 x s 1 hRun hSave .default
    hConfig false
  refine ⟨x, s, s', hRun, hSave, hMark, hOpen, hTree, ?_⟩
  rintro ⟨_, _, ⟨⟩, hCovers⟩
  exact absurd (hCovers 1 hMark) (by decide)

end Site

end TierTree
