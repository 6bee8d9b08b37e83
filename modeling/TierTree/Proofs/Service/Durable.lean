import TierTree.Proofs.Log.Journal
import TierTree.Proofs.Tree.Image
import TierTree.Proofs.Tree.Run
import TierTree.Service.Basic

/-!
Services whose storage holds their tree. The checkpoint and the transactions
logged behind it rebuild the tree at every time between calls, so a service
that is opened over the same storage goes on where this one stopped.
-/

namespace TierTree

/-- A configuration that a service can be opened with. -/
def Config.Valid (c : Config) : Prop :=
  c.validate = .ok () ∧ ∃ registry, Registry.load c.table = .ok registry

namespace Service

variable {J C : Type}

/-- The checkpoint that a save writes. -/
def checkpoint (s : Service J C) : Checkpoint := .stamp s.lastApplied s.tree.toImage.render

section Restore
variable [Vault C] {s : Service J C}

theorem restore_of_load {vault vault' : C} (h : Vault.load vault' = Vault.load vault) :
    restore vault' = restore vault := by
  unfold restore
  rw [h]

/-- A tree comes back from its checkpoint, with the number of the checkpoint. -/
theorem restore_of_stamp {t : Tree} (hSound : t.Sound) {vault : C} {txid : Txid}
    (hLoad : Vault.load vault = .ok (some (.stamp txid t.toImage.render))) :
    restore vault = .ok (t, txid) := by
  unfold restore
  rw [hLoad]
  simp only [Checkpoint.stamp, Image.parse?_render, Tree.ofImage_toImage hSound]

/-- A tree that was saved is restored with its number. -/
theorem restore_of_saved [LawfulVault C] (hSound : s.tree.Sound) {vault : C}
    (hSave : Vault.save s.vault s.checkpoint = (vault, .ok ())) :
    restore vault = .ok (s.tree, s.lastApplied) := by
  have hLoad := LawfulVault.save_spec s.vault s.lastApplied s.tree.toImage.render
  rw [show Vault.save s.vault (.stamp _ _) = _ from hSave] at hLoad
  exact restore_of_stamp hSound hLoad

/-- Where a save is refused, the checkpoint before it is restored. -/
theorem restore_of_unsaved [LawfulVault C] {vault : C} {cause : StorageError}
    (hSave : Vault.save s.vault s.checkpoint = (vault, .error cause)) :
    restore vault = restore s.vault := by
  have hLoad := LawfulVault.save_spec s.vault s.lastApplied s.tree.toImage.render
  rw [show Vault.save s.vault (.stamp _ _) = _ from hSave] at hLoad
  exact restore_of_load hLoad

end Restore

variable [Journal J]

/-- A commit logs the edit and then carries it out. -/
theorem commit_eq (s : Service J C) (id : TransactionId) (e : Edit) (p : Plan) :
    s.commit id e p =
      match Journal.record s.log id e.render with
      | (log, .error (.refused cause)) =>
          ({ s with log := log }, .error (.refused (.storage cause)))
      | (log, .error (.fault f)) => ({ s with log := log }, .error (.fault f))
      | (log, .ok txid) =>
          match s.tree.execute p with
          | .error f => ({ s with log := log }, .error (.fault f))
          | .ok (node, tree) =>
              ({ s with tree := tree, log := log, lastApplied := txid }, .ok node) := by
  simp only [commit, Journal.record]
  rcases Journal.write _ _ _ with ⟨log, (cause | f) | tx⟩
  · rfl
  · rfl
  · simp only
    rcases Journal.commit _ _ with ⟨log, (cause | f) | _⟩ <;> rfl

section Save
variable [Vault C]

/-- What is stored where a save of `s` stops: nothing has changed, or the
checkpoint was to be written, or it is written and the log was to be purged. -/
inductive StopsAt (s : Service J C) : J → C → Prop where
  | before : s.StopsAt s.log s.vault
  | between {vault : C} {result : Except StorageError Unit}
      (hSave : Vault.save s.vault s.checkpoint = (vault, result)) : s.StopsAt s.log vault
  | after {vault : C} {log : J} {result : Attempt StorageError Unit}
      (hSave : Vault.save s.vault s.checkpoint = (vault, .ok ()))
      (hPurge : Journal.purge s.log s.lastApplied = (log, result)) : s.StopsAt log vault

/-- A save ends with a checkpoint that is refused, or with what the purge of the
log answers. -/
theorem save_cases (s : Service J C) :
    (∃ vault cause, Vault.save s.vault s.checkpoint = (vault, .error cause) ∧
      s.save = ({ s with vault := vault }, .error (.refused (.storage cause)))) ∨
    ∃ vault log result, Vault.save s.vault s.checkpoint = (vault, .ok ()) ∧
      Journal.purge s.log s.lastApplied = (log, result) ∧
      s.save = ({ s with vault := vault, log := log },
        (result.map fun _ => s.lastApplied).mapError (Failure.map .storage)) := by
  simp only [save, checkpoint]
  rcases Vault.save s.vault _ with ⟨vault, cause | _⟩
  · exact .inl ⟨vault, cause, rfl, rfl⟩
  · exact .inr ⟨vault, _, _, rfl, rfl, rfl⟩

theorem stopsAt_save (s : Service J C) : s.StopsAt s.save.1.log s.save.1.vault := by
  rcases s.save_cases with
    ⟨vault, cause, hVault, hSave⟩ | ⟨vault, log, result, hVault, hPurge, hSave⟩
  · rw [hSave]
    exact .between hVault
  · rw [hSave]
    exact .after hVault hPurge

end Save

/-- Transactions behind a checkpoint that lead from its tree to another one, and
none beyond this one. -/
structure Rebuilds (base : Tree) (covered : Txid) (records : List CommittedRecord) (tree : Tree)
    (last : Txid) : Prop where
  within : covered ≤ last
  bounded : ∀ r ∈ records, r.txid ≤ last
  replayed : (records.filter (covered < ·.txid)).foldlM replayRecord base = .ok tree
  latest : ((records.filter (covered < ·.txid)).getLast?.map (·.txid)).getD covered = last

section Rebuilds
variable {base tree later : Tree} {covered last next : Txid} {records : List CommittedRecord}

theorem rebuilds_nil (tree : Tree) (last : Txid) : Rebuilds tree last [] tree last :=
  ⟨UInt64.le_refl _, nofun, rfl, rfl⟩

/-- Nothing is made again of transactions that a checkpoint covers. -/
theorem rebuilds_of_le (tree : Tree) (h : ∀ r ∈ records, r.txid ≤ last) :
    Rebuilds tree last records tree last := by
  have hNone : records.filter (last < ·.txid) = [] :=
    List.filter_eq_nil_iff.mpr fun r hMem => by simpa using h r hMem
  constructor
  case within => exact UInt64.le_refl _
  case bounded => exact h
  case replayed => rw [hNone]; rfl
  case latest => rw [hNone]; rfl

theorem replayRecord_render {e : Edit} {node : NodeId} (hApply : tree.apply e = .ok (node, later)) :
    replayRecord tree ⟨next, [e.render]⟩ = .ok later := by
  rw [replayRecord, List.foldlM_cons, replayPayload, Edit.parse?_render]
  simp only [hApply]
  rfl

/-- One more edit is made again behind the others. -/
theorem Rebuilds.snoc (h : Rebuilds base covered records tree last) {e : Edit} {node : NodeId}
    (hApply : tree.apply e = .ok (node, later)) (hNext : last < next) :
    Rebuilds base covered (records ++ [⟨next, [e.render]⟩]) later next := by
  have hCovered : covered < next := UInt64.lt_of_le_of_lt h.within hNext
  have hFilter : (records ++ [(⟨next, [e.render]⟩ : CommittedRecord)]).filter (covered < ·.txid) =
      records.filter (covered < ·.txid) ++ [(⟨next, [e.render]⟩ : CommittedRecord)] := by
    rw [List.filter_append]
    simp [hCovered]
  constructor
  case within => exact UInt64.le_of_lt hCovered
  case bounded =>
    refine List.forall_mem_append.mpr ⟨fun r hMem => ?_, List.forall_mem_singleton.mpr ?_⟩
    · exact UInt64.le_of_lt (UInt64.lt_of_le_of_lt (h.bounded r hMem) hNext)
    · exact UInt64.le_refl _
  case replayed =>
    have hLast : [(⟨next, [e.render]⟩ : CommittedRecord)].foldlM replayRecord tree = .ok later := by
      rw [List.foldlM_cons, replayRecord_render hApply]
      rfl
    rw [hFilter, List.foldlM_append]
    exact bind_eq_ok_iff.mpr ⟨tree, h.replayed, hLast⟩
  case latest =>
    rw [hFilter, List.getLast?_append, List.getLast?_singleton, Option.some_or, Option.map_some,
      Option.getD_some]

end Rebuilds

section Durable
variable [LawfulJournal J] [Vault C] {s : Service J C} {last lost : Txid}
  {used : List TransactionId} {id : TransactionId}

/-- A sound tree that is rebuilt from the checkpoint and the log. The last
number of the log, `last`, may be ahead of the tree. Edits that were purged
from the log are in the checkpoint, apart from such as are numbered up to
`lost`. -/
structure Durable (s : Service J C) (last lost : Txid) (used : List TransactionId) : Prop where
  sound : s.tree.Sound
  within : s.lastApplied ≤ last
  stored : ∃ records base covered,
    LawfulJournal.Settled s.log records last (max lost covered) used ∧
    restore s.vault = .ok (base, covered) ∧
    Rebuilds base covered records s.tree s.lastApplied

/-- Storage that holds the same transactions and the same checkpoint rebuilds the
same tree. -/
theorem Durable.of_storage (h : s.Durable last lost used) {log : J} {vault : C}
    (hLog : ∀ {records last purged}, LawfulJournal.Settled s.log records last purged used →
      LawfulJournal.Settled log records last purged used)
    (hVault : Vault.load vault = Vault.load s.vault) :
    Durable { s with log := log, vault := vault } last lost used := by
  obtain ⟨records, base, covered, hSettled, hRestore, hRebuilds⟩ := h.stored
  exact ⟨h.sound, h.within, records, base, covered, hLog hSettled,
    (restore_of_load hVault).trans hRestore, hRebuilds⟩

/-- What a commit comes to: the edit is carried out under the next number of the
log, or the storage refuses and nothing is done, or a counter is used up. -/
def Committed (s : Service J C) (e : Edit) (last lost : Txid) (used : List TransactionId) :
    Service J C × Attempt ServiceError NodeId → Prop
  | (s', .ok node) => s.tree.apply e = .ok (node, s'.tree) ∧
      successor last = .ok s'.lastApplied ∧ s'.Durable s'.lastApplied lost used
  | (s', .error (.refused cause)) => (∃ e, cause = .storage e) ∧ s'.tree = s.tree ∧
      s'.lastApplied = s.lastApplied ∧ s'.Durable last lost used
  | (_, .error (.fault f)) => f = .overflow

theorem Durable.commit_spec (h : s.Durable last lost used) (hFresh : id ∉ used) {e : Edit}
    {p : Plan} (hPlan : s.tree.plan e = .ok p) :
    s.Committed e last lost (id :: used) (s.commit id e p) := by
  obtain ⟨records, base, covered, hSettled, hRestore, hRebuilds⟩ := h.stored
  have hRecord := LawfulJournal.record_spec hSettled hFresh e.render
  rw [commit_eq]
  generalize Journal.record s.log id e.render = outcome at hRecord ⊢
  obtain ⟨log, (cause | f) | next⟩ := outcome
  · exact ⟨⟨cause, rfl⟩, rfl, rfl, h.sound, h.within, records, base, covered, hRecord, hRestore,
      hRebuilds⟩
  · exact hRecord
  · obtain ⟨hNext, hLogged⟩ := hRecord
    rcases Tree.execute_spec h.sound (Tree.plan_fits h.sound.live hPlan) with
      ⟨node, later, hDone, hLater, _⟩ | hFault
    · have hApply : s.tree.apply e = .ok (node, later) :=
        Tree.apply_eq_ok_iff.mpr ⟨p, hPlan, hDone⟩
      have hAbove : s.lastApplied < next :=
        UInt64.lt_of_le_of_lt h.within (lt_of_successor hNext)
      simp only [hDone]
      exact ⟨hApply, hNext, hLater, UInt64.le_refl _, _, base, covered, hLogged, hRestore,
        hRebuilds.snoc hApply hAbove⟩
    · simp only [hFault, Committed]

/-- What a save comes to: the tree stays as it is and is still rebuilt. -/
def Saved (s : Service J C) (last lost : Txid) (used : List TransactionId) :
    Service J C × Attempt ServiceError Txid → Prop
  | (_, .error (.fault _)) => False
  | (s', _) => s'.tree = s.tree ∧ s'.lastApplied = s.lastApplied ∧ s'.Durable last lost used

/-- The log as it stands beside a checkpoint of the tree, which covers all that
the log commits. -/
theorem Durable.settled (h : s.Durable last lost used) :
    ∃ records, LawfulJournal.Settled s.log records last (max lost s.lastApplied) used ∧
      ∀ r ∈ records, r.txid ≤ s.lastApplied := by
  obtain ⟨records, base, covered, hSettled, _, hRebuilds⟩ := h.stored
  have hMarks : max lost covered ≤ max lost s.lastApplied :=
    max_le_of_le (left_le_max _ _) (UInt64.le_trans hRebuilds.within (right_le_max _ _))
  exact ⟨records, LawfulJournal.mono hSettled hMarks (List.Subset.refl _), hRebuilds.bounded⟩

/-- Wherever a save stops, what is stored rebuilds the tree: edits that the log
still has in common with a new checkpoint are not made again. -/
theorem Durable.stopsAt [LawfulVault C] (h : s.Durable last lost used) {log : J} {vault : C}
    (hStop : s.StopsAt log vault) :
    Durable { s with log := log, vault := vault } last lost used := by
  obtain ⟨records, hSettled, hBounded⟩ := h.settled
  have hCovered : Rebuilds s.tree s.lastApplied records s.tree s.lastApplied :=
    rebuilds_of_le s.tree hBounded
  cases hStop with
  | before => exact h
  | @between _ result hSave =>
      cases result with
      | error cause =>
          obtain ⟨records, base, covered, hSettled, hRestore, hRebuilds⟩ := h.stored
          exact ⟨h.sound, h.within, records, base, covered, hSettled,
            (restore_of_unsaved hSave).trans hRestore, hRebuilds⟩
      | ok _ =>
          exact ⟨h.sound, h.within, records, s.tree, s.lastApplied, hSettled,
            restore_of_saved h.sound hSave, hCovered⟩
  | @after _ _ result hSave hPurge =>
      have hPurged := LawfulJournal.purge_spec hSettled hBounded (right_le_max _ _)
      rw [hPurge] at hPurged
      obtain (cause | f) | _ := result
      · exact ⟨h.sound, h.within, records, s.tree, s.lastApplied, hPurged,
          restore_of_saved h.sound hSave, hCovered⟩
      · exact hPurged.elim
      · rw [Purged, max_of_ge h.within] at hPurged
        exact ⟨h.sound, h.within, [], s.tree, s.lastApplied, hPurged,
          restore_of_saved h.sound hSave, rebuilds_nil _ _⟩

theorem Durable.save_spec [LawfulVault C] (h : s.Durable last lost used) :
    s.Saved last lost used s.save := by
  obtain ⟨records, hSettled, hBounded⟩ := h.settled
  have hPurged := LawfulJournal.purge_spec hSettled hBounded (right_le_max _ _)
  rcases s.save_cases with
    ⟨vault, cause, hVault, hSave⟩ | ⟨vault, log, result, hVault, hPurge, hSave⟩
  · rw [hSave]
    exact ⟨rfl, rfl, h.stopsAt (.between hVault)⟩
  · have hStop := h.stopsAt (.after hVault hPurge)
    rw [hSave]
    rw [hPurge] at hPurged
    obtain (cause | f) | _ := result
    · exact ⟨rfl, rfl, hStop⟩
    · exact hPurged
    · exact ⟨rfl, rfl, hStop⟩

omit [LawfulJournal J] [Journal J] in
theorem prepare_of_restore {config : Config} (hValid : config.Valid) {vault : C} {base : Tree}
    {covered : Txid} (hRestore : restore vault = .ok (base, covered)) :
    ∃ registry, prepare config vault = .ok (registry, base, covered) := by
  obtain ⟨hConfig, registry, hRegistry⟩ := hValid
  refine ⟨registry, ?_⟩
  simp only [prepare, hConfig, hRegistry, hRestore]
  rfl

/-- Opening over a log and a checkpoint that rebuild a tree gives this tree. -/
theorem openOver_of_rebuilds {config : Config} (hValid : config.Valid) {log : J} {vault : C}
    {records : List CommittedRecord} {base tree : Tree} {covered applied purged : Txid}
    (hSettled : LawfulJournal.Settled log records last purged used) (hCurrent : covered ≤ last)
    (hRestore : restore vault = .ok (base, covered))
    (hRebuilds : Rebuilds base covered records tree applied) :
    ∃ registry, openOver config log vault =
      (log, .ok ⟨tree, registry, config.defaultReplication, log, vault, applied⟩) := by
  obtain ⟨registry, hPrepare⟩ := prepare_of_restore hValid hRestore
  refine ⟨registry, ?_⟩
  have hCaughtUp : catchUp log covered = (log, .ok ()) := by
    rw [catchUp, LawfulJournal.lastTxid_eq hSettled, if_neg (UInt64.not_lt.mpr hCurrent)]
  have hReplay : replay config registry log vault base covered =
      .ok ⟨tree, registry, config.defaultReplication, log, vault, applied⟩ := by
    rw [replay, LawfulJournal.committedSince_eq hSettled]
    refine bind_eq_ok_iff.mpr ⟨tree, hRebuilds.replayed, ?_⟩
    rw [hRebuilds.latest]
    rfl
  simp only [openOver, hPrepare, hCaughtUp, hReplay]

/-- A service that is opened over the storage of another one goes on with its
tree and its number. -/
theorem Durable.openOver_spec (h : s.Durable last lost used) {config : Config}
    (hValid : config.Valid) {log : J}
    (hLog : ∀ records last purged, LawfulJournal.Settled s.log records last purged used →
      LawfulJournal.Settled log records last purged used) :
    ∃ s', openOver config log s.vault = (log, .ok s') ∧ s'.tree = s.tree ∧
      s'.lastApplied = s.lastApplied ∧ s'.Durable last lost used := by
  obtain ⟨records, base, covered, hSettled, hRestore, hRebuilds⟩ := h.stored
  have hCurrent : covered ≤ last := UInt64.le_trans hRebuilds.within h.within
  obtain ⟨registry, hOpen⟩ :=
    openOver_of_rebuilds hValid (hLog _ _ _ hSettled) hCurrent hRestore hRebuilds
  exact ⟨_, hOpen, rfl, rfl, h.sound, h.within, records, base, covered, hLog _ _ _ hSettled,
    hRestore, hRebuilds⟩

/-- A service that is opened without a checkpoint, over a log without records,
has a new tree, whatever was purged from the log. -/
theorem openOver_unrecorded {config : Config} (hValid : config.Valid) {log : J} {vault : C}
    (hLog : LawfulJournal.Settled log [] last lost used) (hVault : Vault.load vault = .ok none) :
    ∃ s : Service J C, openOver config log vault = (log, .ok s) ∧ s.tree = .new ∧
      s.lastApplied = 0 ∧ s.Durable last lost used := by
  have hRestore : restore vault = .ok (.new, 0) := by
    unfold restore
    rw [hVault]
  have hRebuilds := rebuilds_nil Tree.new 0
  have hMarked : LawfulJournal.Settled log [] last (max lost 0) used :=
    LawfulJournal.mono hLog (left_le_max _ _) (List.Subset.refl _)
  obtain ⟨registry, hOpen⟩ :=
    openOver_of_rebuilds hValid hLog UInt64.zero_le hRestore hRebuilds
  exact ⟨_, hOpen, rfl, rfl, Tree.new_sound, UInt64.zero_le, [], _, _, hMarked, hRestore,
    hRebuilds⟩

end Durable

end Service

end TierTree
