import Mathlib.Logic.Function.Basic
import TierTree.Proofs.Log.File
import TierTree.Proofs.Service.Durable

/-!
Saves on disk. A checkpoint or a purged log is written to a draft that then
takes the place of the file, so a save that ends after any stroke of the file
system leaves files that stand for one of the places where a save may stop.
-/

namespace TierTree

/-- The files that a service replaces. -/
inductive Role where
  | log
  | checkpoint
  deriving DecidableEq, Repr

/-- The files of a service and the drafts beside them. -/
structure Directory where
  file : Role → Option (List UInt8)
  draft : Role → Option (List UInt8)

/-- What the file system does at one stroke. Writing a draft may be cut off
behind any byte. -/
inductive Stroke where
  | create (role : Role)
  | append (role : Role) (byte : UInt8)
  | rename (role : Role)
  deriving DecidableEq, Repr

namespace Stroke

/-- The strokes that write bytes to a draft. -/
def drafting (role : Role) (bytes : List UInt8) : List Stroke :=
  .create role :: bytes.map (.append role)

/-- The strokes that put bytes in the place of a file. -/
def replacing (role : Role) (bytes : List UInt8) : List Stroke :=
  drafting role bytes ++ [.rename role]

end Stroke

namespace Directory

open Stroke (drafting replacing)

/-- A draft that is created again starts empty. -/
def after (d : Directory) : Stroke → Directory
  | .create role => { d with draft := Function.update d.draft role (some []) }
  | .append role byte =>
      { d with draft := Function.update d.draft role ((d.draft role).map (· ++ [byte])) }
  | .rename role =>
      match d.draft role with
      | none => d
      | some bytes =>
          { file := Function.update d.file role (some bytes)
            draft := Function.update d.draft role none }

/-- The directory after strokes in order. -/
def play (d : Directory) (strokes : List Stroke) : Directory := strokes.foldl after d

section Play
variable {role : Role} {bytes written : List UInt8}

theorem play_append (d : Directory) (first second : List Stroke) :
    d.play (first ++ second) = (d.play first).play second :=
  List.foldl_append ..

theorem play_appends {d : Directory} (h : d.draft role = some written) :
    d.play (bytes.map (.append role)) =
      { d with draft := Function.update d.draft role (some (written ++ bytes)) } := by
  induction bytes generalizing d written with
  | nil =>
      rw [List.append_nil, ← h, Function.update_eq_self]
      rfl
  | cons byte rest ih =>
      have hFirst : (d.after (.append role byte)).draft role = some (written ++ [byte]) := by
        simp [after, h]
      calc d.play ((byte :: rest).map (.append role))
          = (d.after (.append role byte)).play (rest.map (.append role)) := rfl
        _ = _ := by
          rw [ih hFirst]
          simp [after]

/-- Whatever was in the draft before, it holds the bytes that were written. -/
theorem play_drafting (d : Directory) :
    d.play (drafting role bytes) =
      { d with draft := Function.update d.draft role (some bytes) } := by
  have hEmpty : (d.after (.create role)).draft role = some [] := by simp [after]
  calc d.play (drafting role bytes)
      = (d.after (.create role)).play (bytes.map (.append role)) := rfl
    _ = _ := by
      rw [play_appends hEmpty]
      simp [after]

theorem file_play_replacing (d : Directory) :
    (d.play (replacing role bytes)).file = Function.update d.file role (some bytes) := by
  rw [replacing, play_append, play_drafting]
  simp [play, after]

/-- Without a rename every file stays as it is. -/
theorem file_play_of_drafting {strokes : List Stroke} (h : ∀ role, .rename role ∉ strokes)
    (d : Directory) : (d.play strokes).file = d.file := by
  induction strokes generalizing d with
  | nil => rfl
  | cons stroke rest ih =>
      have hRest := ih (fun role hMem => h role (List.mem_cons_of_mem _ hMem)) (d.after stroke)
      cases stroke with
      | create role => exact hRest
      | append role byte => exact hRest
      | rename role => exact absurd List.mem_cons_self (h role)

/-- A file is replaced by the last stroke, and not before. -/
theorem file_play_take (d : Directory) (k : Nat) :
    (d.play ((replacing role bytes).take k)).file =
      if k < (replacing role bytes).length then d.file
      else Function.update d.file role (some bytes) := by
  split
  next hShort =>
    have hDraft : k ≤ (drafting role bytes).length := by
      rw [replacing, List.length_append, List.length_singleton] at hShort
      exact Nat.le_of_lt_succ hShort
    have hNoRename : ∀ other, .rename other ∉ (drafting role bytes).take k := by
      intro other hMem
      simpa [drafting] using List.mem_of_mem_take hMem
    rw [replacing, List.take_append_of_le_length hDraft]
    exact file_play_of_drafting hNoRename d
  next hLong => rw [List.take_of_length_le (Nat.le_of_not_lt hLong), file_play_replacing]

end Play

/-- The directory has the bytes of a log and of a checkpoint. -/
structure Holds (d : Directory) (log : LogFile) (vault : CheckpointFile) : Prop where
  log : d.file .log = some log.stored
  checkpoint : d.file .checkpoint = vault.content

/-- Opening a service from the files, under any configuration that is valid and
whatever is in the way of new files, gives the tree and the number of `s`. -/
def Resumes (d : Directory) (s : FileService) : Prop :=
  ∀ config dir, config.Valid → config.storageDir = some dir → ∀ logBlocked vaultBlocked,
    ∃ s', (FileService.openFiles config (d.file .log) logBlocked
        ⟨d.file .checkpoint, vaultBlocked⟩).2 = .ok s' ∧
      s'.tree = s.tree ∧ s'.lastApplied = s.lastApplied

end Directory

namespace FileService

/-- The strokes that replace the checkpoint. -/
def checkpointStrokes (s : FileService) : List Stroke :=
  Stroke.replacing .checkpoint (Utf8.encode s.checkpoint.render)

/-- The strokes that replace the log by what a purge leaves of it. -/
def logStrokes (s : FileService) : List Stroke :=
  Stroke.replacing .log (Frame.encodeAll (s.log.ledger.purgedEntries s.lastApplied))

/-- The strokes of a save that nothing gets in the way of. -/
def saveStrokes (s : FileService) : List Stroke := s.checkpointStrokes ++ s.logStrokes

/-- The service with nothing in the way of its log. -/
def freed (s : FileService) : FileService := { s with log := s.log.freed }

/-- Wherever a save of the service is cut off, the files resume it, and what a
save leaves are the files after some of its strokes, after all of them just if
it answers or cannot open the log that it has put in the place of the old one. -/
structure SurvivesCuts (s : FileService) : Prop where
  resumes : ∀ d : Directory, d.Holds s.log s.vault →
    ∀ k, (d.play (s.saveStrokes.take k)).Resumes s
  leaves : ∀ d : Directory, d.Holds s.log s.vault → ∃ k ≤ s.saveStrokes.length,
    (d.play (s.saveStrokes.take k)).Holds s.save.1.log s.save.1.vault ∧
      (k = s.saveStrokes.length ↔ s.save.2 = .ok s.lastApplied ∨
        s.save.2 = .error (.refused (.storage (.io .reopen))))

end FileService

section Save
variable {s : FileService} {last lost : Txid} {used : List TransactionId} {d : Directory}

theorem Service.Durable.attached (h : s.Durable last lost used) : s.log.Attached := by
  obtain ⟨_, _, _, hSettled, _⟩ := h.stored
  exact LogFile.Settled.attached hSettled

namespace Directory

/-- Files that stand for a service resume it, whatever is in the way of its log, unless
another file is in the place of it. -/
theorem Holds.resumes (hHolds : d.Holds s.log s.vault) (hHere : s.log.replaced = none)
    (h : s.freed.Durable last lost used) : d.Resumes s := by
  intro config dir hValid hDir logBlocked vaultBlocked
  let found : FileService := { s.freed with vault := ⟨s.vault.content, vaultBlocked⟩ }
  have hFound : found.Durable last lost used := h.of_storage id rfl
  have hStored : s.log.stored = found.log.stored := LogFile.stored_of_here hHere
  obtain ⟨s', hOpen, hTree, hLast, _⟩ := hFound.openOver_spec hValid fun _ _ _ hSettled =>
    LogFile.load_settled hSettled logBlocked
  rw [← hStored] at hOpen
  refine ⟨s', ?_, hTree, hLast⟩
  simp only [FileService.openFiles, hDir, hHolds.log, hHolds.checkpoint, Option.getD_some]
  rw [hOpen]

/-- The files after so many strokes of a save. -/
theorem file_play_saveStrokes (s : FileService) (d : Directory) (k : Nat) :
    (d.play (s.saveStrokes.take k)).file =
      if k < s.checkpointStrokes.length then d.file
      else if k < s.saveStrokes.length then
        Function.update d.file .checkpoint (some (Utf8.encode s.checkpoint.render))
      else
        Function.update
          (Function.update d.file .checkpoint (some (Utf8.encode s.checkpoint.render))) .log
          (some (Frame.encodeAll (s.log.ledger.purgedEntries s.lastApplied))) := by
  have hLength : s.saveStrokes.length = s.checkpointStrokes.length + s.logStrokes.length :=
    List.length_append
  have hLog : 0 < s.logStrokes.length := List.length_pos_of_mem List.mem_cons_self
  rw [FileService.saveStrokes, List.take_append, play_append, FileService.logStrokes,
    file_play_take, ← FileService.logStrokes, ← FileService.saveStrokes, hLength,
    FileService.checkpointStrokes, file_play_take, ← FileService.checkpointStrokes]
  by_cases hFirst : k < s.checkpointStrokes.length
  · rw [if_pos hFirst, if_pos hFirst, if_pos (by omega)]
  · by_cases hSecond : k < s.checkpointStrokes.length + s.logStrokes.length
    · rw [if_neg hFirst, if_neg hFirst, if_pos hSecond, if_pos (by omega)]
    · rw [if_neg hFirst, if_neg hFirst, if_neg hSecond, if_neg (by omega)]

theorem Holds.before (hHolds : d.Holds s.log s.vault) {k : Nat}
    (hShort : k < s.checkpointStrokes.length) :
    (d.play (s.saveStrokes.take k)).Holds s.log s.vault := by
  have hFile := file_play_saveStrokes s d k
  rw [if_pos hShort] at hFile
  exact ⟨hFile ▸ hHolds.log, hFile ▸ hHolds.checkpoint⟩

theorem Holds.between (hHolds : d.Holds s.log s.vault) {k : Nat}
    (hReplaced : s.checkpointStrokes.length ≤ k) (hShort : k < s.saveStrokes.length)
    {vault : CheckpointFile}
    (hVault : vault.content = some (Utf8.encode s.checkpoint.render)) :
    (d.play (s.saveStrokes.take k)).Holds s.log vault := by
  have hFile := file_play_saveStrokes s d k
  rw [if_neg (Nat.not_lt.mpr hReplaced), if_pos hShort] at hFile
  constructor
  case log =>
    rw [hFile, Function.update_of_ne Role.noConfusion]
    exact hHolds.log
  case checkpoint => rw [hFile, Function.update_self, hVault]

theorem holds_after {k : Nat} (hReplaced : s.saveStrokes.length ≤ k) {log : LogFile}
    {vault : CheckpointFile}
    (hLog : log.stored = Frame.encodeAll (s.log.ledger.purgedEntries s.lastApplied))
    (hVault : vault.content = some (Utf8.encode s.checkpoint.render)) :
    (d.play (s.saveStrokes.take k)).Holds log vault := by
  have hFirst : s.checkpointStrokes.length ≤ k := by
    rw [FileService.saveStrokes, List.length_append] at hReplaced
    omega
  have hFile := file_play_saveStrokes s d k
  rw [if_neg (Nat.not_lt.mpr hFirst), if_neg (Nat.not_lt.mpr hReplaced)] at hFile
  constructor
  case log => rw [hFile, Function.update_self, hLog]
  case checkpoint =>
    rw [hFile, Function.update_of_ne Role.noConfusion, Function.update_self, hVault]

/-- After any of its strokes, a save that nothing gets in the way of has stopped
at one of its places. -/
theorem Holds.play_take (hHolds : d.Holds s.log s.vault) (hLog : s.log.blocked = false)
    (hOpens : s.log.denied = false) (hVault : s.vault.blocked = false) (k : Nat) :
    ∃ log vault, s.StopsAt log vault ∧ (d.play (s.saveStrokes.take k)).Holds log vault := by
  have hSave := CheckpointFile.save_of_free hVault s.checkpoint
  by_cases hFirst : k < s.checkpointStrokes.length
  · exact ⟨_, _, .before, hHolds.before hFirst⟩
  · by_cases hSecond : k < s.saveStrokes.length
    · exact ⟨_, _, .between hSave, hHolds.between (Nat.le_of_not_lt hFirst) hSecond rfl⟩
    · refine ⟨_, _, .after hSave (LogFile.purge_of_free hLog hOpens s.lastApplied), ?_⟩
      exact holds_after (Nat.le_of_not_lt hSecond) (by simp only [LogFile.stored, Sink.replace,
        Option.getD_none]) rfl

/-- A save that is cut off behind any stroke leaves files that resume the
service. -/
theorem Holds.resumes_play_take (hHolds : d.Holds s.log s.vault) (hHere : s.log.replaced = none)
    (h : s.freed.Durable last lost used) (k : Nat) :
    (d.play (s.saveStrokes.take k)).Resumes s := by
  let free : FileService := { s.freed with vault := { s.vault with blocked := false } }
  have hFree : free.Durable last lost used := h.of_storage id rfl
  have hHoldsFree : d.Holds free.log free.vault :=
    ⟨hHolds.log.trans (congrArg some (LogFile.stored_of_here hHere)), hHolds.checkpoint⟩
  obtain ⟨log, vault, hStop, hThere⟩ := hHoldsFree.play_take rfl rfl rfl k
  have hStopped : Service.Durable { free with log := log, vault := vault } last lost used :=
    hFree.stopsAt hStop
  exact Holds.resumes (s := { s with log := log, vault := vault }) hThere hStopped.attached.here
    (hStopped.of_storage LogFile.Settled.freed rfl)

/-- A save that is refused leaves the files after no stroke, or after those that
replace the checkpoint, unless the new log is in its place and cannot be opened. -/
theorem Holds.play_save (hHolds : d.Holds s.log s.vault) :
    ∃ k ≤ s.saveStrokes.length,
      (d.play (s.saveStrokes.take k)).Holds s.save.1.log s.save.1.vault ∧
      (k = s.saveStrokes.length ↔ s.save.2 = .ok s.lastApplied ∨
        s.save.2 = .error (.refused (.storage (.io .reopen)))) := by
  have hStrokes : s.saveStrokes.length = s.checkpointStrokes.length + s.logStrokes.length :=
    List.length_append
  have hCheckpoint : 0 < s.checkpointStrokes.length := List.length_pos_of_mem List.mem_cons_self
  have hLog : 0 < s.logStrokes.length := List.length_pos_of_mem List.mem_cons_self
  rcases s.save_cases with
    ⟨vault, cause, hVault, hSave⟩ | ⟨vault, log, result, hVault, hPurge, hSave⟩
  · obtain ⟨rfl, rfl⟩ := CheckpointFile.save_of_error hVault
    refine ⟨0, Nat.zero_le _, ?_, ?_⟩
    · rw [hSave]
      exact hHolds.before hCheckpoint
    · rw [hSave]
      exact iff_of_false (by omega) fun hEnd => hEnd.elim nofun nofun
  · have hContent := CheckpointFile.save_of_ok hVault
    rw [hSave]
    rcases s.log.purge_cases s.lastApplied with ⟨_, hDone⟩ | ⟨_, _, hDone⟩ | ⟨_, _, hDone⟩ <;>
      obtain ⟨rfl, rfl⟩ := Prod.mk.inj (hPurge.symm.trans hDone)
    · refine ⟨s.checkpointStrokes.length, by omega, ?_, ?_⟩
      · exact hHolds.between (Nat.le_refl _) (by omega) hContent
      · exact iff_of_false (by omega) fun hEnd => hEnd.elim nofun nofun
    · refine ⟨s.saveStrokes.length, Nat.le_refl _, ?_, iff_of_true rfl (.inr rfl)⟩
      exact holds_after (Nat.le_refl _) (by simp only [LogFile.stored, Option.getD_some]) hContent
    · refine ⟨s.saveStrokes.length, Nat.le_refl _, ?_, iff_of_true rfl (.inl rfl)⟩
      exact holds_after (Nat.le_refl _)
        (by simp only [LogFile.stored, Sink.replace, Option.getD_none]) hContent

end Directory

theorem FileService.survivesCuts (hHere : s.log.replaced = none)
    (h : s.freed.Durable last lost used) : FileService.SurvivesCuts s :=
  ⟨fun _ hHolds => hHolds.resumes_play_take hHere h, fun _ hHolds => hHolds.play_save⟩

end Save

end TierTree
