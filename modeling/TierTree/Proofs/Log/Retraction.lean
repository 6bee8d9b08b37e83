import TierTree.Proofs.Log.Mirror

/-!
Transactions that are given up. Nothing of one is ever returned again, unless a
commit of it was left in the file as a whole line: then a log that is opened
from the file takes it for committed.
-/

namespace TierTree

namespace Ledger

variable {l : Ledger} {id : TransactionId}

/-- Nothing of a transaction is returned: it has no commit, and the answers are
those of a log that has never seen its entries. -/
structure Omits (l : Ledger) (id : TransactionId) : Prop where
  uncommitted : ∀ txid, .commit id txid ∉ l.entries
  unseen : ∀ after, l.committedSince after =
    (ofEntries (l.entries.filter (·.transaction? ≠ some id))).committedSince after

theorem omits_of_uncommitted (h : ∀ txid, .commit id txid ∉ l.entries) : l.Omits id := by
  have hWhole : Whole l.entries (· ≠ id) (fun _ => true) (·.transaction? ≠ some id) := by
    constructor
    case write =>
      intro tx payload
      simp [LogEntry.transaction?]
    case commit =>
      intro tx txid hMem
      have hOther : tx ≠ id := fun hSame => h txid (hSame ▸ hMem)
      simp [LogEntry.transaction?, hOther]
  refine ⟨h, fun after => ?_⟩
  rw [committedSince_eq_filter, committedSince_eq_filter, entries_ofEntries,
    commits_filter_eq hWhole]

end Ledger

namespace LogFile

open TierTree.Frame (Lines encode readAll)

variable {x : Chronicle LogFile} {action : FileStep} {s : FileState} {disk : List LogEntry}
  {gone used : List TransactionId} {id : TransactionId} {bytes : List UInt8}
  {steps more : List FileStep} {txid : Txid}

/-- A transaction that is known but no longer under way, and has no commit in
memory or on disk. -/
structure Over (s : FileState) (id : TransactionId) (used : List TransactionId) : Prop where
  known : id ∈ used
  idle : id ∉ s.ledger.active
  ledger : ∀ txid, .commit id txid ∉ s.ledger.entries
  file : ∀ txid, .commit id txid ∉ (readAll s.bytes).1

section Other
variable {e : LogEntry} (h : Over (state x) id used) (hMirrors : Mirrors (state x) disk gone used)
  (hIntact : x.log.failed = false) (hOther : e.transaction? ≠ some id)
include h hMirrors hIntact hOther

theorem Over.not_on_disk (txid : Txid) : .commit id txid ∉ disk ++ [e] := by
  intro hMem
  have hRead : (readAll x.log.sink.bytes).1 = disk := hMirrors.read_eq hIntact
  rcases List.mem_append.mp hMem with hBefore | hNew
  · exact h.file txid (hRead ▸ hBefore)
  · rw [← List.mem_singleton.mp hNew] at hOther
    exact hOther rfl

/-- The line of another transaction is no commit of this one. -/
theorem Over.not_appended (txid : Txid) :
    .commit id txid ∉ (readAll (x.log.sink.bytes ++ encode e)).1 := by
  have hLines : Lines (x.log.sink.bytes ++ encode e) (disk ++ [e]) :=
    (hMirrors.intact hIntact).append (Frame.lines_encode e)
  rw [hLines.readAll_eq]
  exact h.not_on_disk hMirrors hIntact hOther txid

end Other

/-- No step brings a transaction that is over back: what is appended belongs to
another one, and the file and the ledger never hold a commit they did not have. -/
theorem Over.moves (h : Over (state x) id used) (hMirrors : Mirrors (state x) disk gone used)
    (hFresh : ∀ id ∈ action.started?, id ∉ used) (hMoves : Moves x action s) :
    Over s id (action.started?.toList ++ used) := by
  have hKnown : id ∈ action.started?.toList ++ used := List.mem_append_right _ h.known
  have hOther : ∀ other ∈ x.log.ledger.active, some other ≠ some id :=
    fun other hActive hSame => h.idle (Option.some.inj hSame ▸ hActive)
  cases hMoves with
  | idle => exact ⟨hKnown, h.idle, h.ledger, h.file⟩
  | @start other hId =>
      refine ⟨hKnown, fun hMem => ?_, h.ledger, h.file⟩
      rcases List.mem_cons.mp hMem with hSame | hBefore
      · exact hFresh other hId (hSame ▸ h.known)
      · exact h.idle (List.mem_filter.mp hBefore).1
  | @write other payload hIntact hActive =>
      refine ⟨hKnown, h.idle, fun txid hMem => ?_,
        h.not_appended hMirrors hIntact (hOther other hActive)⟩
      exact h.ledger txid (Ledger.commit_mem_append_write hMem)
  | @commit other next hIntact hActive =>
      refine ⟨hKnown, fun hMem => h.idle (List.mem_filter.mp hMem).1, fun txid hMem => ?_,
        h.not_appended hMirrors hIntact (hOther other hActive)⟩
      rcases Ledger.commit_mem_append_commit hMem with hBefore | ⟨hOwn, _⟩
      · exact h.ledger txid hBefore
      · exact hOther other hActive (congrArg some hOwn.symm)
  | @fail other e left hIntact _ hId hActive hLeaves =>
      have hNot := h.not_on_disk hMirrors hIntact (hId ▸ hOther other hActive)
      refine ⟨hKnown, h.idle, h.ledger, fun txid hMem => ?_⟩
      rcases readAll_left (hMirrors.intact hIntact) hLeaves with ⟨_, hRead⟩ | ⟨_, hRead⟩
      · exact hNot txid (List.mem_append_left _ (hRead ▸ hMem))
      · exact hNot txid (hRead ▸ hMem)
  | rollback =>
      exact ⟨hKnown, fun hMem => h.idle (List.mem_filter.mp hMem).1,
        fun txid hMem => h.ledger txid (List.mem_filter.mp hMem).1, h.file⟩
  | @purge through bytes hLines =>
      have hKept : ∀ txid, .commit id txid ∉ x.log.ledger.purgedEntries through :=
        fun txid hMem => h.ledger txid (Ledger.commit_mem_of_purged hMem)
      constructor
      case known => exact hKnown
      case idle =>
        rw [hMirrors.active_purge]
        exact h.idle
      case ledger =>
        rw [Ledger.entries_purge]
        exact hKept
      case file =>
        rw [hLines.readAll_eq]
        exact hKept
  | reload =>
      have hLines := Frame.lines_readAll x.log.sink.bytes
      constructor
      case known => exact hKnown
      case idle =>
        rw [Ledger.active_ofEntries]
        exact List.not_mem_nil
      case ledger =>
        rw [Ledger.entries_ofEntries]
        exact h.file
      case file =>
        rw [hLines.readAll_eq]
        exact h.file

section Run

theorem usedBy_run (bytes : List UInt8) (steps : List FileStep) :
    usedBy bytes (run bytes steps) = (steps.filterMap FileStep.started?).reverse ++
      (readAll bytes).1.filterMap LogEntry.transaction? := by
  induction steps using List.reverseRecOn with
  | nil => rfl
  | append_singleton rest last ih =>
      rw [run_snoc, usedBy_step, ih, List.filterMap_append, List.reverse_append, List.append_assoc]
      cases hStarted : last.started? <;> simp [hStarted]

/-- What is begun later has not been used before. -/
theorem Distinct.later (h : Distinct bytes (steps ++ more)) :
    ∀ id ∈ more.filterMap FileStep.started?, id ∉ usedBy bytes (run bytes steps) := by
  intro id hId hMem
  have hOnce := h.once
  rw [List.filterMap_append, List.nodup_append] at hOnce
  rw [usedBy_run] at hMem
  rcases List.mem_append.mp hMem with hBefore | hFile
  · exact hOnce.2.2 id (List.mem_reverse.mp hBefore) id hId rfl
  · obtain ⟨e, hEntry, hNamed⟩ := List.mem_filterMap.mp hFile
    have hLater : id ∈ (steps ++ more).filterMap FileStep.started? := by
      rw [List.filterMap_append]
      exact List.mem_append_right _ hId
    exact h.fresh id hLater e (entries_load bytes ▸ hEntry) hNamed

/-- What is over stays over, whatever follows. -/
theorem run_over (h : Distinct bytes (steps ++ more))
    (hOver : Over (state (run bytes steps)) id (usedBy bytes (run bytes steps))) :
    Over (state (run bytes (steps ++ more))) id (usedBy bytes (run bytes (steps ++ more))) := by
  have hOnce : (more.filterMap FileStep.started?).Nodup :=
    h.once.sublist (List.Sublist.filterMap _ (List.sublist_append_right steps more))
  rw [run_append]
  have hFirst := And.intro (run_mirrors h.front) hOver
  refine (foldl_of_fresh (usedBy bytes)
    (fun x => x.log.Attached ∧ (∃ disk gone, Mirrors (state x) disk gone (usedBy bytes x)) ∧
      Over (state x) id (usedBy bytes x))
    (usedBy_step bytes) ?_ ⟨run_attached bytes steps, hFirst⟩ hOnce h.later).2.2
  intro x action hBefore hFresh
  obtain ⟨hAttached, ⟨disk, gone, hMirrors⟩, hStill⟩ := hBefore
  have hMoves := step_spec hAttached action
  rw [usedBy_step]
  exact ⟨step_attached hAttached action, hMirrors.moves hFresh hMoves,
    hStill.moves hMirrors hFresh hMoves⟩

theorem active_of_moves (hMirrors : Mirrors (state x) disk gone used) (hMoves : Moves x action s)
    (hKnown : id ∈ s.ledger.active) :
    id ∈ x.log.ledger.active ∨ action.started? = some id ∧ s.bytes = x.log.sink.bytes := by
  cases hMoves with
  | idle => exact .inl hKnown
  | start hId =>
      rcases List.mem_cons.mp hKnown with hSame | hBefore
      · exact .inr ⟨hSame ▸ hId, rfl⟩
      · exact .inl (List.mem_filter.mp hBefore).1
  | write => exact .inl hKnown
  | commit => exact .inl (List.mem_filter.mp hKnown).1
  | fail => exact .inl hKnown
  | rollback => exact .inl (List.mem_filter.mp hKnown).1
  | purge => exact .inl (hMirrors.active_purge _ ▸ hKnown)
  | reload =>
      rw [Ledger.active_ofEntries] at hKnown
      cases hKnown

/-- The log has failed since a commit of a transaction was appended that could
neither be made durable nor be cut off. -/
def StuckCommit (bytes : List UInt8) (steps : List FileStep) (id : TransactionId) : Prop :=
  ∃ before action after next, Interrupted bytes steps before action after (.commit id next) ∧
    (run bytes before).log.sink.Stuck

theorem StuckCommit.failed (h : StuckCommit bytes steps id) :
    (run bytes steps).log.failed = true := by
  obtain ⟨before, action, after, next, hInterrupted, _⟩ := h
  rw [hInterrupted.split]
  exact hInterrupted.failed after (List.prefix_refl after)

/-- A commit that can be read though its transaction is under way was left by a
failed append: where the log has not failed since, the file would commit no more
than the ledger does. -/
theorem stuckCommit_of_read (h : Distinct bytes steps)
    (hKnown : id ∈ (run bytes steps).log.ledger.active)
    (hRead : .commit id txid ∈ (readAll (run bytes steps).log.sink.bytes).1) :
    StuckCommit bytes steps id := by
  induction steps using List.reverseRecOn with
  | nil =>
      have hNone : (load bytes).ledger.active = [] := Ledger.active_ofEntries _
      rw [show (run bytes []).log = load bytes from rfl, hNone] at hKnown
      cases hKnown
  | append_singleton rest last ih =>
      obtain ⟨disk, gone, hMirrors⟩ := run_mirrors h.front
      obtain ⟨later, goneLater, hLater⟩ := run_mirrors h
      have hMoves := run_moves bytes rest last
      have hActive : id ∈ (run bytes rest).log.ledger.active := by
        rcases active_of_moves hMirrors hMoves hKnown with hBefore | ⟨hStarted, hBytes⟩
        · exact hBefore
        · -- A commit that can be read is not one of a transaction that begins only now.
          have hOld : .commit id txid ∈ (readAll (run bytes rest).log.sink.bytes).1 :=
            hBytes ▸ hRead
          have hLast : id ∈ [last].filterMap FileStep.started? :=
            List.mem_filterMap.mpr ⟨last, List.mem_singleton_self last, hStarted⟩
          exact absurd (hMirrors.named _ (.inr hOld) id rfl) (h.later id hLast)
      cases hFailed : (run bytes (rest ++ [last])).log.failed with
      | false =>
          have hDisk : (readAll (run bytes (rest ++ [last])).log.sink.bytes).1 = later :=
            hLater.read_eq hFailed
          exact absurd (hDisk ▸ hRead) (hLater.uncommitted id (.inl hKnown) txid)
      | true =>
          cases hBefore : (run bytes rest).log.failed with
          | true =>
              have hBytes : (run bytes (rest ++ [last])).log.sink.bytes =
                  (run bytes rest).log.sink.bytes := moves_of_failed hMoves hBefore hFailed
              obtain ⟨before, action, after, next, hRest, hStuck⟩ :=
                ih h.front hActive (hBytes ▸ hRead)
              exact ⟨before, action, _, next, hRest.snoc hBefore hFailed, hStuck⟩
          | false =>
              obtain ⟨e, hNow⟩ := interrupted_now h hBefore hFailed
              have hDisk : (readAll (run bytes rest).log.sink.bytes).1 = disk :=
                hMirrors.read_eq hBefore
              have hNot : .commit id txid ∉ disk := hMirrors.uncommitted id (.inl hActive) txid
              have hEntries := hNow.entries
              rw [entries_load, entries_load, hDisk] at hEntries
              rcases hEntries with ⟨_, hSame⟩ | ⟨hStuck, hMore⟩
              · exact absurd (hSame ▸ hRead) hNot
              · rcases List.mem_append.mp (hMore ▸ hRead) with hOld | hNew
                · exact absurd hOld hNot
                · rw [← List.mem_singleton.mp hNew] at hNow
                  exact ⟨rest, last, [], txid, hNow, hStuck⟩

theorem rollback_done {tx given : Transaction}
    (hAnswer : (Journal.rollback x.log tx).2 = .ok given) :
    tx.id ∈ x.log.ledger.active ∧
      (step x (.call (.rollback tx))).log =
        { x.log with ledger := x.log.ledger.discard tx.id } := by
  have hRollback : Journal.rollback x.log tx = x.log.rollback tx := rfl
  rcases Ledger.check_cases x.log.ledger tx with ⟨e, hCheck⟩ | ⟨hActive, hKnown⟩
  · rw [hRollback, LogFile.rollback, Ledger.rollback, hCheck] at hAnswer
    cases hAnswer
  · refine ⟨hKnown, ?_⟩
    rw [step, Chronicle.perform, hRollback, LogFile.rollback, Ledger.rollback,
      Ledger.check_of_active hActive hKnown]
    simp only [Transaction.rollback, hActive, if_true, mapError_ok, Chronicle.note]

/-- A transaction that is given up is over where the file holds no commit of it. -/
theorem over_of_rollback {tx given : Transaction} (h : Distinct bytes steps)
    (hAnswer : (Journal.rollback (run bytes steps).log tx).2 = .ok given)
    (hFree : ¬ StuckCommit bytes steps tx.id) :
    Over (state (run bytes (steps ++ [.call (.rollback tx)]))) tx.id
      (usedBy bytes (run bytes (steps ++ [.call (.rollback tx)]))) := by
  obtain ⟨hKnown, hLog⟩ := rollback_done hAnswer
  obtain ⟨disk, gone, hMirrors⟩ := run_mirrors h
  rw [run_snoc]
  constructor
  case known =>
    rw [usedBy_step]
    exact List.mem_append_right _ (hMirrors.known tx.id (.inl hKnown))
  case idle =>
    rw [state, hLog]
    intro hMem
    exact of_decide_eq_true (List.mem_filter.mp hMem).2 rfl
  case ledger =>
    rw [state, hLog]
    intro txid hMem
    exact hMirrors.uncommitted tx.id (.inl hKnown) txid
      (hMirrors.entries_subset (List.mem_filter.mp hMem).1)
  case file =>
    rw [state, hLog]
    exact fun txid hRead => hFree (stuckCommit_of_read h hKnown hRead)

/-- A transaction that is given up is returned neither by the log nor by any
that is opened from its file, at any later time, exactly if the log has not
failed since a commit of it was left in the file. -/
theorem rollback_omits_iff {tx given : Transaction}
    (hDistinct : Distinct bytes (steps ++ [.call (.rollback tx)]))
    (hAnswer : (Journal.rollback (run bytes steps).log tx).2 = .ok given) :
    (∀ more, Distinct bytes (steps ++ [.call (.rollback tx)] ++ more) →
      let log := (run bytes (steps ++ [.call (.rollback tx)] ++ more)).log
      log.ledger.Omits tx.id ∧ (load log.sink.bytes).ledger.Omits tx.id) ↔
    ¬ StuckCommit bytes steps tx.id := by
  constructor
  case mp =>
    rintro hAll ⟨before, action, after, next, hInterrupted, hStuck⟩
    have hOmits := (hAll [] (by rwa [List.append_nil])).2.uncommitted next
    have hBytes : (run bytes (steps ++ [.call (.rollback tx)])).log.sink.bytes =
        (run bytes steps).log.sink.bytes := by rw [run_snoc, (rollback_done hAnswer).2]
    rw [List.append_nil, hBytes] at hOmits
    rcases hInterrupted.entries with ⟨hFree, _⟩ | ⟨_, hEntries⟩
    · exact hFree hStuck
    · rw [hEntries] at hOmits
      exact hOmits (List.mem_append_right _ (List.mem_singleton_self _))
  case mpr =>
    intro hFree more hMore
    have hOver := run_over hMore (over_of_rollback hDistinct.front hAnswer hFree)
    refine ⟨Ledger.omits_of_uncommitted hOver.ledger, Ledger.omits_of_uncommitted ?_⟩
    rw [entries_load]
    exact hOver.file

/-- A commit that is torn is cut off, and its transaction can be given up. -/
theorem rollback_omits_torn_commit :
    let steps : List FileStep := [.call (.start ⟨⟨1⟩⟩), .call (.write (.start ⟨⟨1⟩⟩) "a"),
      .disturb (.tornAppendsAfter 0) false, .call (.commit ⟨⟨⟨1⟩⟩, .active, 1⟩)]
    let giveUp : FileStep := .call (.rollback ⟨⟨⟨1⟩⟩, .active, 1⟩)
    ∀ more, Distinct [] (steps ++ [giveUp] ++ more) →
      let log := (run [] (steps ++ [giveUp] ++ more)).log
      log.ledger.Omits ⟨⟨1⟩⟩ ∧ (load log.sink.bytes).ledger.Omits ⟨⟨1⟩⟩ := by
  intro steps giveUp
  have hFree : ¬ StuckCommit [] steps ⟨⟨1⟩⟩ := fun hStuck => by cases hStuck.failed
  have hAnswer : (Journal.rollback (run [] steps).log ⟨⟨⟨1⟩⟩, .active, 1⟩).2 =
      .ok ⟨⟨⟨1⟩⟩, .rolledBack, 0⟩ := rfl
  exact (rollback_omits_iff (.of_unread (by decide) rfl) hAnswer).mpr hFree

/-- A commit whose line can neither be made durable nor be cut off is refused,
and the transaction is given up; but the line is taken for good later. -/
theorem rollback_undone_by_stuck_commit :
    let steps : List FileStep := [.call (.start ⟨⟨1⟩⟩), .call (.write (.start ⟨⟨1⟩⟩) "p"),
      .disturb (.syncsAfter 0) true, .call (.commit ⟨⟨⟨1⟩⟩, .active, 1⟩)]
    Distinct [] (steps ++ [.call (.rollback ⟨⟨⟨1⟩⟩, .active, 1⟩)]) ∧
      (Journal.rollback (run [] steps).log ⟨⟨⟨1⟩⟩, .active, 1⟩).2 = .ok ⟨⟨⟨1⟩⟩, .rolledBack, 0⟩ ∧
      Journal.committedSince (load (run [] (steps ++
        [.call (.rollback ⟨⟨⟨1⟩⟩, .active, 1⟩)])).log.sink.bytes) 0 = [⟨1, ["p"]⟩] := by
  intro steps
  have hBytes : (run [] (steps ++ [.call (.rollback ⟨⟨⟨1⟩⟩, .active, 1⟩)])).log.sink.bytes =
      [] ++ encode (.write ⟨⟨1⟩⟩ "p") ++ encode (.commit ⟨⟨1⟩⟩ 1) := rfl
  have hLines : Lines ([] ++ encode (.write ⟨⟨1⟩⟩ "p") ++ encode (.commit ⟨⟨1⟩⟩ 1))
      ([] ++ [.write ⟨⟨1⟩⟩ "p"] ++ [.commit ⟨⟨1⟩⟩ 1]) :=
    (Lines.nil.append (Frame.lines_encode _)).append (Frame.lines_encode _)
  refine ⟨.of_unread (by decide) rfl, rfl, ?_⟩
  show Ledger.committedSince (load _).ledger 0 = _
  rw [hBytes, Ledger.committedSince, entries_load, hLines.readAll_eq]
  rfl

end Run

end LogFile

end TierTree
