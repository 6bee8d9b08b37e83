import TierTree.Proofs.Service.Reach

/-!
Services whose log is not the one that is found. A purged log that has taken the
place of the old one and cannot be opened leaves a service that goes on writing
to the old one. What the service does is what it would do with nothing in the
way, but opening it again gives the tree of its checkpoint.
-/

namespace TierTree

namespace FileService

/-- Edits would be lost if the service were opened again: another log is in the
place of the one that has them, and the checkpoint lacks them. -/
def Stale (s : FileService) : Prop :=
  s.log.replaced ≠ none ∧ ∃ base covered,
    Service.restore s.vault = .ok (base, covered) ∧ covered < s.lastApplied

section Freed
variable (s : FileService)

theorem commit_freed (id : TransactionId) (e : Edit) (p : Plan) :
    s.freed.commit id e p = (freed (s.commit id e p).1, (s.commit id e p).2) := by
  have hRecord : Journal.record s.freed.log id e.render =
      ((Journal.record s.log id e.render).1.freed, (Journal.record s.log id e.render).2) :=
    s.log.record_amid false false none id e.render
  have hTree : s.freed.tree = s.tree := rfl
  rw [Service.commit_eq, Service.commit_eq, hRecord, hTree]
  rcases Journal.record s.log id e.render with ⟨log, (cause | f) | txid⟩
  · rfl
  · rfl
  · rcases s.tree.execute p with f | ⟨node, tree⟩ <;> rfl

theorem apply_freed (id : TransactionId) (e : Edit) :
    s.freed.apply id e = (freed (s.apply id e).1, (s.apply id e).2) := by
  have hTree : s.freed.tree = s.tree := rfl
  rw [Service.apply, Service.apply, hTree]
  cases s.tree.plan e with
  | error cause => rfl
  | ok p => exact s.commit_freed id e p

/-- What a call does does not depend on what is in the way of the log. -/
theorem call_freed (id : TransactionId) (c : Call) :
    s.freed.call id c = (freed (s.call id c).1, (s.call id c).2) := by
  have hTree : s.freed.tree = s.tree := rfl
  have hRegistry : s.freed.registry = s.registry := rfl
  cases c with
  | mkdirs path => exact congrArg Service.made (s.apply_freed id _)
  | createFile path replication => exact congrArg Service.made (s.apply_freed id _)
  | createSnapshot path name =>
      simp only [Service.call, Service.createSnapshot, apply_freed, Service.made]
  | deleteSnapshot path name =>
      simp only [Service.call, Service.deleteSnapshot, apply_freed, Service.made]
  | delete path recursive =>
      simp only [Service.call, Service.delete, commit_freed, hTree]
      split <;> rfl
  | setPolicy path policyName =>
      simp only [Service.call, Service.setPolicy, apply_freed, Service.made, hRegistry]
      split <;> rfl

/-- Where a save stops, it would stop with nothing in the way of the log, if
perhaps at another place. -/
theorem stopsAt_freed {s : FileService} {log : LogFile} {vault : CheckpointFile}
    (h : s.StopsAt log vault) : s.freed.StopsAt log.freed vault := by
  cases h with
  | before => exact .before
  | between hSave => exact .between hSave
  | after hSave hPurge =>
      rcases s.log.purge_freed s.lastApplied with ⟨hSame, _⟩ | ⟨_, hDone⟩
      · rw [hPurge] at hSame
        rw [hSame]
        exact .between hSave
      · rw [hPurge] at hDone
        exact .after hSave hDone

end Freed

section Open
variable {config : Config} {log : LogFile} {vault : CheckpointFile} {s : FileService}

theorem catchUp_freed (hHere : log.replaced = none) (covered : Txid) :
    (∃ cause, (Service.catchUp log covered).2 = .error (.refused (.io cause))) ∨
    (Service.catchUp log covered).1.replaced = none ∧
      Service.catchUp log.freed covered =
        ((Service.catchUp log covered).1.freed, (Service.catchUp log covered).2) := by
  have hLast : Journal.lastTxid log.freed = Journal.lastTxid log := rfl
  rw [Service.catchUp, Service.catchUp, hLast]
  split
  · exact (log.purge_freed covered).imp_left And.right
  · exact .inr ⟨hHere, rfl⟩

theorem replay_freed {registry : Registry} {base : Tree} {covered : Txid}
    (h : Service.replay config registry log.freed vault base covered = .ok s) :
    ∃ s', Service.replay config registry log vault base covered = .ok s' ∧ s'.log = log ∧
      freed s' = s := by
  obtain ⟨tree, hTree, hDone⟩ := bind_eq_ok_iff.mp h
  cases hDone
  exact ⟨_, bind_eq_ok_iff.mpr ⟨tree, hTree, rfl⟩, rfl, rfl⟩

/-- What is in the way of a log only matters to opening a service if the log has
to be purged, and then it is refused. -/
theorem openOver_freed (hHere : log.replaced = none)
    (hFreed : (Service.openOver config log.freed vault).2 = .ok s) :
    (∃ s', (Service.openOver config log vault).2 = .ok s' ∧ s'.log.replaced = none ∧
      freed s' = s) ∨
    ∃ cause, (Service.openOver config log vault).2 = .error (.refused (.storage (.io cause))) := by
  obtain ⟨registry, base, covered, found, hPrepare, hCaughtUp, hReplay⟩ :=
    Service.openOver_eq_ok hFreed
  have hCatchUp := catchUp_freed hHere covered
  simp only [Service.openOver, hPrepare]
  generalize Service.catchUp log covered = outcome at hCatchUp ⊢
  obtain ⟨log', result⟩ := outcome
  rcases hCatchUp with ⟨cause, hRefused⟩ | ⟨hNone, hSame⟩
  · obtain rfl : result = .error (.refused (.io cause)) := hRefused
    exact .inr ⟨cause, rfl⟩
  · obtain ⟨rfl, rfl⟩ := Prod.mk.inj (hSame.symm.trans hCaughtUp)
    obtain ⟨s', hOpen, rfl, hFound⟩ := replay_freed hReplay
    exact .inl ⟨s', hOpen, hNone, hFound⟩

end Open

/-- What a service writes rebuilds its tree. Where another log is in the place of
its own, this one has no records and is not ahead of the checkpoint. -/
structure Afloat (s : FileService) (used : List TransactionId) : Prop where
  durable : s.freed.Durable s.lastApplied 0 used
  replaced : ∀ bytes, s.log.replaced = some bytes → ∃ base covered purged,
    Service.restore s.vault = .ok (base, covered) ∧ base.Sound ∧ purged ≤ covered ∧
      (LogFile.load bytes).Settled [] purged purged used

section Afloat
variable {s s' : FileService} {used later : List TransactionId} {base : Tree} {covered : Txid}

/-- A service that writes to the log that is found. -/
theorem afloat_of_here (hHere : s.log.replaced = none)
    (h : s.freed.Durable s.lastApplied 0 used) : s.Afloat used :=
  ⟨h, fun _ hBytes => by cases hHere.symm.trans hBytes⟩

theorem afloat_of_durable (h : s.Durable s.lastApplied 0 used) : s.Afloat used :=
  afloat_of_here h.attached.here (h.of_storage LogFile.Settled.freed rfl)

/-- A service that goes on beside the same files. -/
theorem Afloat.goes_on (h : s.Afloat used) (hDurable : s'.freed.Durable s'.lastApplied 0 later)
    (hVault : Service.restore s'.vault = Service.restore s.vault)
    (hReplaced : s'.log.replaced = s.log.replaced) (hUsed : used ⊆ later) : s'.Afloat later := by
  refine ⟨hDurable, fun bytes hBytes => ?_⟩
  obtain ⟨base, covered, purged, hRestore, hSound, hCovered, hSettled⟩ :=
    h.replaced bytes (hReplaced ▸ hBytes)
  exact ⟨base, covered, purged, hVault.trans hRestore, hSound, hCovered,
    hSettled.mono (UInt64.le_refl _) hUsed⟩

theorem Afloat.mono (h : s.Afloat used) (hUsed : used ⊆ later) : s.Afloat later :=
  h.goes_on (h.durable.mono hUsed) rfl rfl hUsed

/-- The checkpoint is not ahead of the tree, and has the tree if it is not behind. -/
theorem Afloat.of_restore (h : s.Afloat used)
    (hRestore : Service.restore s.vault = .ok (base, covered)) :
    covered ≤ s.lastApplied ∧ (covered = s.lastApplied → base = s.tree) := by
  obtain ⟨records, base', covered', _, hFound, hRebuilds⟩ := h.durable.stored
  cases hRestore.symm.trans hFound
  refine ⟨hRebuilds.within, fun hSame => ?_⟩
  have hNone : records.filter (covered < ·.txid) = [] := by
    refine List.filter_eq_nil_iff.mpr fun r hMem => ?_
    have hBounded : r.txid ≤ s.lastApplied := hRebuilds.bounded r hMem
    simpa [hSame] using hBounded
  have hReplayed := hRebuilds.replayed
  rw [hNone] at hReplayed
  cases hReplayed
  rfl

/-- What is opened in the place of the log is not ahead of a checkpoint of the tree. -/
theorem Afloat.replaced_of_saved (h : s.Afloat used) {vault : CheckpointFile}
    (hSave : Vault.save s.vault s.checkpoint = (vault, .ok ())) {bytes : List UInt8}
    (hReplaced : s.log.replaced = some bytes) :
    ∃ base covered purged, Service.restore vault = .ok (base, covered) ∧ base.Sound ∧
      purged ≤ covered ∧ (LogFile.load bytes).Settled [] purged purged used := by
  obtain ⟨_, covered, purged, hRestore, _, hCovered, hSettled⟩ := h.replaced bytes hReplaced
  exact ⟨s.tree, s.lastApplied, purged, Service.restore_of_saved h.durable.sound hSave,
    h.durable.sound, UInt64.le_trans hCovered (h.of_restore hRestore).1, hSettled⟩

/-- A purge behind a checkpoint leaves a log that is as far as the checkpoint. -/
theorem Afloat.load_purged (h : s.Afloat used) :
    (LogFile.load (Frame.encodeAll (s.log.ledger.purgedEntries s.lastApplied))).Settled []
      s.lastApplied s.lastApplied used := by
  obtain ⟨records, hSettled, hBounded⟩ := h.durable.settled
  have hApplied : s.freed.lastApplied = s.lastApplied := rfl
  have hLoaded := LogFile.load_purged_settled hSettled.ledger hBounded (right_le_max _ _)
  rwa [hApplied, max_of_ge (UInt64.le_refl _), max_of_le UInt64.zero_le] at hLoaded

/-- A service stays afloat wherever a save of it stops. -/
theorem Afloat.stopsAt (h : s.Afloat used) {log : LogFile} {vault : CheckpointFile}
    (hStop : s.StopsAt log vault) : Afloat { s with log := log, vault := vault } used := by
  refine ⟨h.durable.stopsAt (stopsAt_freed hStop), fun bytes hReplaced => ?_⟩
  cases hStop with
  | before => exact h.replaced bytes hReplaced
  | @between _ result hSave =>
      cases result with
      | ok _ => exact h.replaced_of_saved hSave hReplaced
      | error cause =>
          rw [Service.restore_of_unsaved hSave]
          exact h.replaced bytes hReplaced
  | after hSave hPurge =>
      rcases s.log.purge_cases s.lastApplied with ⟨_, hDone⟩ | ⟨_, _, hDone⟩ | ⟨_, _, hDone⟩ <;>
        obtain ⟨rfl, _⟩ := Prod.mk.inj (hPurge.symm.trans hDone)
      · exact h.replaced_of_saved hSave hReplaced
      · rw [← Option.some.inj hReplaced]
        exact ⟨s.tree, s.lastApplied, s.lastApplied,
          Service.restore_of_saved h.durable.sound hSave, h.durable.sound, UInt64.le_refl _,
          h.load_purged⟩
      · exact absurd hReplaced nofun

/-- A save is refused while something is in the way of a new file, or because a new log cannot
be opened, or it is answered. -/
theorem save_outcome (s : FileService) :
    (∃ vault cause, s.save = ({ s with vault := vault }, .error (.refused (.storage (.io cause)))) ∧
      cause ≠ .reopen) ∨
    (∃ vault, Vault.save s.vault s.checkpoint = (vault, .ok ()) ∧
      s.save = ({ s with
        vault := vault
        log := { s.log with replaced := some (Frame.encodeAll
          (s.log.ledger.purgedEntries s.lastApplied)) } },
        .error (.refused (.storage (.io .reopen))))) ∨
    ∃ vault log, s.save = ({ s with vault := vault, log := log }, .ok s.lastApplied) ∧
      log.replaced = none := by
  rcases s.save_cases with
    ⟨vault, cause, hVault, hSave⟩ | ⟨vault, log, result, hVault, hPurge, hSave⟩
  · obtain ⟨_, rfl⟩ := CheckpointFile.save_of_error hVault
    exact .inl ⟨vault, .blocked, hSave, nofun⟩
  · rcases s.log.purge_cases s.lastApplied with ⟨_, hDone⟩ | ⟨_, _, hDone⟩ | ⟨_, _, hDone⟩ <;>
      obtain ⟨rfl, rfl⟩ := Prod.mk.inj (hPurge.symm.trans hDone)
    · exact .inl ⟨vault, .blocked, hSave, nofun⟩
    · exact .inr (.inl ⟨vault, hVault, hSave⟩)
    · exact .inr (.inr ⟨vault, _, hSave, rfl⟩)

theorem call_replaced (s : FileService) (id : TransactionId) (c : Call) :
    (s.call id c).1.log.replaced = s.log.replaced := by
  rcases (s.call_storage id c).2 with hSame | ⟨payload, hRecorded⟩
  · rw [hSame]
  · rw [hRecorded]
    exact congrArg (LogFile.replaced ∘ Prod.fst) (s.log.record_amid _ _ _ id payload)

/-- A call leaves the service afloat, behind one more edit if it was made, unless a
counter is used up. -/
theorem Afloat.call (h : s.Afloat used) {id : TransactionId} (hFresh : id ∉ used) (c : Call) :
    Afloat (s.call id c).1 (id :: used) ∧
        ((s.call id c).2 = .ok true → s.lastApplied < (s.call id c).1.lastApplied) ∧
        (∀ f, (s.call id c).2 ≠ .error (.fault f)) ∨
      (s.call id c).2 = .error (.fault .overflow) := by
  have hRestore := congrArg Service.restore (s.call_storage id c).1
  have hReplaced := s.call_replaced id c
  have hMore : used ⊆ id :: used := List.subset_cons_self _ _
  have hCall := h.durable.call_spec hFresh c
  rw [call_freed] at hCall
  generalize s.call id c = outcome at hCall hRestore hReplaced ⊢
  obtain ⟨s', (cause | f) | (_ | _)⟩ := outcome
  · obtain ⟨_, hApplied, hDurable⟩ := hCall
    have hLast : s'.lastApplied = s.lastApplied := hApplied
    exact .inl ⟨h.goes_on (hLast ▸ hDurable) hRestore hReplaced hMore, nofun, nofun⟩
  · exact .inr (congrArg (Except.error ∘ Failure.fault) hCall)
  · obtain ⟨_, hApplied, hDurable⟩ := hCall
    have hLast : s'.lastApplied = s.lastApplied := hApplied
    exact .inl ⟨h.goes_on (hLast ▸ hDurable) hRestore hReplaced hMore, nofun, nofun⟩
  · obtain ⟨_, _, _, _, hNext, hDurable⟩ := hCall
    exact .inl ⟨h.goes_on hDurable hRestore hReplaced hMore, fun _ => lt_of_successor hNext, nofun⟩

/-- An edit that is made while another log is in the place of the one that is written to
makes the service stale. -/
theorem Afloat.stale_of_call (h : s.Afloat used) (hReplaced : s.log.replaced ≠ none)
    {id : TransactionId} (hFresh : id ∉ used) {c : Call} (hCall : s.call id c = (s', .ok true)) :
    s'.Stale := by
  obtain ⟨bytes, hBytes⟩ := Option.ne_none_iff_exists'.mp hReplaced
  obtain ⟨base, covered, _, hRestore, _⟩ := h.replaced bytes hBytes
  have hSame := s.call_replaced id c
  have hVault := congrArg Service.restore (s.call_storage id c).1
  have hMade := h.call hFresh c
  rw [hCall] at hSame hVault hMade
  obtain ⟨_, hAhead, _⟩ := hMade.resolve_right nofun
  exact ⟨hSame ▸ hReplaced, base, covered, hVault.trans hRestore,
    UInt64.lt_of_le_of_lt (h.of_restore hRestore).1 (hAhead rfl)⟩

/-- A log without records that is not ahead of a checkpoint is opened with the tree of the
checkpoint. -/
theorem openOver_unrecorded {config : Config} (hValid : config.Valid) {bytes : List UInt8}
    {purged : Txid}
    (hSettled : LawfulJournal.Settled (LogFile.load bytes) [] purged purged used)
    (hCovered : purged ≤ covered) {vault : CheckpointFile}
    (hRestore : Service.restore vault = .ok (base, covered)) (hSound : base.Sound) :
    ∃ s : FileService, (Service.openOver config (LogFile.load bytes) vault).2 = .ok s ∧
      s.tree = base ∧ s.lastApplied = covered ∧ s.Durable s.lastApplied 0 used := by
  have hRebuilds := Service.rebuilds_nil base covered
  by_cases hBehind : purged < covered
  · have hPurge := @LogFile.purge_of_free (LogFile.load bytes) rfl rfl covered
    have hPurged := Service.purge_of_behind hSettled hBehind
    rw [hPurge] at hPurged
    obtain ⟨registry, hOpen⟩ :=
      Service.openOver_of_behind hValid hSettled hBehind hRestore hPurge
    rw [Purged, max_of_le hCovered] at hPurged
    have hMarked := LawfulJournal.mono hPurged (right_le_max 0 covered) (List.Subset.refl _)
    exact ⟨_, congrArg Prod.snd hOpen, rfl, rfl, hSound, UInt64.le_refl _, [], base, covered,
      hMarked, hRestore, hRebuilds⟩
  · obtain rfl : purged = covered := UInt64.le_antisymm hCovered (UInt64.not_lt.mp hBehind)
    obtain ⟨registry, hOpen⟩ :=
      Service.openOver_of_rebuilds hValid hSettled hCovered hRestore hRebuilds
    have hMarked := LawfulJournal.mono hSettled (right_le_max 0 purged) (List.Subset.refl _)
    exact ⟨_, congrArg Prod.snd hOpen, rfl, rfl, hSound, UInt64.le_refl _, [], base, purged,
      hMarked, hRestore, hRebuilds⟩

/-- Opened with nothing in the way, a service goes on as it was if it writes to the log that
is found, and is taken back to its checkpoint if not. -/
theorem Afloat.reopen_spec (h : s.Afloat used) {config : Config} (hValid : config.Valid) :
    ∃ s' : FileService, (Service.openOver config (LogFile.load s.log.stored) s.vault).2 = .ok s' ∧
      s'.Durable s'.lastApplied 0 used ∧
      (s.log.replaced = none → s'.tree = s.tree ∧ s'.lastApplied = s.lastApplied) ∧
      (s.log.replaced ≠ none → Service.restore s.vault = .ok (s'.tree, s'.lastApplied)) := by
  cases hReplaced : s.log.replaced with
  | none =>
      obtain ⟨s', hOpen, hTree, hLast, hDurable⟩ := h.durable.openOver_spec hValid
        fun _ _ _ hSettled => LogFile.load_settled hSettled false
      rw [LogFile.stored_of_here hReplaced]
      exact ⟨s', congrArg Prod.snd hOpen, hLast ▸ hDurable, fun _ => ⟨hTree, hLast⟩,
        fun hOther => absurd rfl hOther⟩
  | some bytes =>
      obtain ⟨base, covered, purged, hRestore, hSound, hCovered, hSettled⟩ :=
        h.replaced bytes hReplaced
      obtain ⟨s', hOpen, rfl, rfl, hDurable⟩ :=
        openOver_unrecorded hValid hSettled hCovered hRestore hSound
      rw [LogFile.stored, hReplaced, Option.getD_some]
      exact ⟨s', hOpen, hDurable, fun hNone => absurd hNone (Option.some_ne_none bytes),
        fun _ => hRestore⟩

/-- A service is stale where a save of it stops just if it was before, and the checkpoint
has not been written. -/
theorem Afloat.stale_stopsAt_iff (h : s.Afloat used) {log : LogFile} {vault : CheckpointFile}
    (hStop : s.StopsAt log vault) :
    Stale { s with log := log, vault := vault } ↔
      s.Stale ∧ Vault.save s.vault s.checkpoint ≠ (vault, .ok ()) := by
  have hCurrent (hSave : Vault.save s.vault s.checkpoint = (vault, .ok ())) :
      ¬ Stale { s with log := log, vault := vault } := by
    rintro ⟨_, base, covered, hRestore, hBehind⟩
    cases hRestore.symm.trans (Service.restore_of_saved h.durable.sound hSave)
    exact UInt64.lt_irrefl _ hBehind
  cases hStop with
  | before => exact ⟨fun hStale => ⟨hStale, fun hSave => hCurrent hSave hStale⟩, And.left⟩
  | @between _ result hSave =>
      cases result with
      | ok _ => exact iff_of_false (hCurrent hSave) fun hBoth => hBoth.2 hSave
      | error cause =>
          have hUnsaved : Vault.save s.vault s.checkpoint ≠ (vault, .ok ()) := by
            rw [hSave]
            nofun
          have hSame : Stale { s with vault := vault } ↔ s.Stale := by
            simp only [Stale, Service.restore_of_unsaved hSave]
          exact hSame.trans (and_iff_left hUnsaved).symm
  | after hSave => exact iff_of_false (hCurrent hSave) fun hBoth => hBoth.2 hSave

end Afloat

end FileService

end TierTree
