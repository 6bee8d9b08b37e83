import TierTree.Proofs.Log.Selection

/-!
Ledgers between the calls of a service. Transactions of others may be under way
in them: a transaction of the service is added when it is committed, a write
without a commit adds nothing, and a purge drops all that is committed.
-/

namespace TierTree.Ledger

/-- A ledger between calls: it commits `records`, its last number is `last`, no
checkpoint in it goes beyond `purged`, and all its transactions, those under
way among them, are among `used`. -/
structure Settled (l : Ledger) (records : List CommittedRecord) (last purged : Txid)
    (used : List TransactionId) : Prop where
  recorded : commits [] l.entries = records
  latest : l.lastTxid = last
  reached : highest l.entries = last
  marked : ∀ txid, .checkpoint txid ∈ l.entries → txid ≤ purged
  active : ∀ id ∈ l.active, id ∈ used
  named : ∀ e ∈ l.entries, ∀ id ∈ e.transaction?, id ∈ used

variable {l : Ledger} {records : List CommittedRecord} {last next purged through : Txid}
  {used : List TransactionId} {id : TransactionId} {payload : String}

/-- A ledger whose last number is the highest one that it holds. -/
theorem settled_of_highest (hReached : highest l.entries = l.lastTxid)
    (hActive : ∀ id ∈ l.active, id ∈ used)
    (hNamed : ∀ e ∈ l.entries, ∀ id ∈ e.transaction?, id ∈ used) :
    l.Settled (commits [] l.entries) l.lastTxid l.lastTxid used where
  recorded := rfl
  latest := rfl
  reached := hReached
  marked := fun _ hMem => hReached ▸ le_highest hMem rfl
  active := hActive
  named := hNamed

/-- A ledger that is made of stored entries. -/
theorem ofEntries_settled {entries : List LogEntry}
    (hNamed : ∀ e ∈ entries, ∀ id ∈ e.transaction?, id ∈ used) :
    (ofEntries entries).Settled (commits [] entries) (highest entries) (highest entries) used where
  recorded := by rw [entries_ofEntries]
  latest := lastTxid_ofEntries entries
  reached := by rw [entries_ofEntries]
  marked := by rw [entries_ofEntries]; exact fun _ hMem => le_highest hMem rfl
  active := by rw [active_ofEntries]; exact nofun
  named := by rw [entries_ofEntries]; exact hNamed

theorem empty_settled : empty.Settled [] 0 purged used := by
  constructor <;> simp [empty, commits, highest]

namespace Settled

theorem mono {further : Txid} {later : List TransactionId} (h : l.Settled records last purged used)
    (hPurged : purged ≤ further) (hUsed : used ⊆ later) :
    l.Settled records last further later :=
  { h with
    marked := fun txid hMem => UInt64.le_trans (h.marked txid hMem) hPurged
    active := fun id hId => hUsed (h.active id hId)
    named := fun e hMem id hId => hUsed (h.named e hMem id hId) }

/-- No number of a settled ledger is beyond its last one. -/
theorem le_last (h : l.Settled records last purged used) {r : CommittedRecord}
    (hMem : r ∈ records) : r.txid ≤ last := by
  rw [← h.recorded] at hMem
  obtain ⟨tx, hEntry⟩ := mem_commits hMem
  exact h.reached ▸ le_highest hEntry rfl

/-- A ledger that is made of the entries of another one takes its place. -/
theorem reload (h : l.Settled records last purged used) :
    (ofEntries l.entries).Settled records last purged used where
  recorded := by rw [entries_ofEntries, h.recorded]
  latest := by rw [lastTxid_ofEntries, h.reached]
  reached := by rw [entries_ofEntries, h.reached]
  marked := by rw [entries_ofEntries]; exact h.marked
  active := by rw [active_ofEntries]; exact nofun
  named := by rw [entries_ofEntries]; exact h.named

/-- A write without a commit adds nothing. -/
theorem orphan (h : l.Settled records last purged used) (id : TransactionId) (payload : String) :
    (l.record (.write id payload)).Settled records last purged (id :: used) := by
  constructor
  case recorded =>
    rw [record, commits_append, h.recorded]
    exact List.append_nil records
  case latest => exact h.latest
  case reached => rw [record, highest_append_write, h.reached]
  case marked =>
    intro txid hMem
    rcases List.mem_append.mp hMem with hBefore | hNew
    · exact h.marked txid hBefore
    · cases List.mem_singleton.mp hNew
  case active => exact fun tx hTx => List.mem_cons_of_mem _ (h.active tx hTx)
  case named =>
    intro e hMem tx hTx
    rcases List.mem_append.mp hMem with hBefore | hNew
    · exact List.mem_cons_of_mem _ (h.named e hBefore tx hTx)
    · rw [List.mem_singleton.mp hNew] at hTx
      cases hTx
      exact List.mem_cons_self

/-- Nothing is left over of a transaction that has not been used. -/
theorem not_leftover (h : l.Settled records last purged used) (hFresh : id ∉ used) :
    ∀ w ∈ leftover [] l.entries, w.1 ≠ id := by
  rintro w hMem rfl
  rcases mem_leftover hMem with hNone | hEntry
  · cases hNone
  · exact hFresh (h.named _ hEntry _ rfl)

/-- A write and its commit add one transaction. -/
theorem committed (h : l.Settled records last purged used) (hFresh : id ∉ used)
    (hNext : last < next) :
    ((l.record (.write id payload)).record (.commit id next)).Settled
      (records ++ [⟨next, [payload]⟩]) next purged (id :: used) := by
  have hOrphan := h.orphan id payload
  have hLater : max last next = next := max_of_le (UInt64.le_of_lt hNext)
  constructor
  case recorded =>
    have hOther : (leftover [] l.entries).filter (·.1 = id) = [] :=
      List.filter_eq_nil_iff.mpr (by simpa using h.not_leftover hFresh)
    simp only [record, List.append_assoc, List.singleton_append]
    rw [commits_append, h.recorded, commits, commits, List.filter_append, hOther]
    simp [commits]
  case latest =>
    show max l.lastTxid next = next
    rw [h.latest, hLater]
  case reached =>
    show highest ((l.record (.write id payload)).entries ++ [.commit id next]) = next
    rw [highest_append_commit, hOrphan.reached, hLater]
  case marked =>
    intro txid hMem
    rcases List.mem_append.mp hMem with hBefore | hNew
    · exact hOrphan.marked txid hBefore
    · cases List.mem_singleton.mp hNew
  case active =>
    exact fun tx hTx => List.mem_cons_of_mem _ (h.active tx (List.mem_filter.mp hTx).1)
  case named =>
    intro e hMem tx hTx
    rcases List.mem_append.mp hMem with hBefore | hNew
    · exact hOrphan.named e hBefore tx hTx
    · rw [List.mem_singleton.mp hNew] at hTx
      cases hTx
      exact List.mem_cons_self

/-- A commit does not outlive a purge up to the number of every record. -/
theorem commit_not_purged (h : l.Settled records last purged used)
    (hRecords : ∀ r ∈ records, r.txid ≤ through) (tx : TransactionId) (txid : Txid) :
    .commit tx txid ∉ l.purgedEntries through := by
  intro hMem
  rcases List.mem_cons.mp hMem with hMark | hKept
  · cases hMark
  · obtain ⟨hEntry, hAbove⟩ := List.mem_filter.mp hKept
    have hNumber : txid ∈ records.map (·.txid) := by
      rw [← h.recorded, map_txid_commits]
      exact List.mem_filterMap.mpr ⟨_, hEntry, rfl⟩
    obtain ⟨r, hRecord, rfl⟩ := List.mem_map.mp hNumber
    exact UInt64.not_lt.mpr (hRecords r hRecord) (of_decide_eq_true hAbove)

/-- A purge up to the number of every record leaves no transaction, and no
number less than before. -/
theorem purge (h : l.Settled records last purged used)
    (hRecords : ∀ r ∈ records, r.txid ≤ through) (hPurged : through ≤ purged) :
    (l.purge through).Settled [] (max last through) purged used := by
  have hReached : highest l.entries = l.lastTxid := h.reached.trans h.latest.symm
  have hLatest : (l.purge through).lastTxid = max last through := by
    rw [lastTxid_purge hReached, h.latest]
  constructor
  case recorded =>
    rw [entries_purge]
    refine List.eq_nil_iff_forall_not_mem.mpr fun r hMem => ?_
    obtain ⟨tx, hCommit⟩ := mem_commits hMem
    exact h.commit_not_purged hRecords tx r.txid hCommit
  case latest => exact hLatest
  case reached => rw [entries_purge, highest_purge hReached, hLatest]
  case marked =>
    intro txid hMem
    rw [entries_purge] at hMem
    rcases List.mem_cons.mp hMem with hMark | hKept
    · cases hMark
      exact checkpointTxid_le hPurged h.marked
    · exact absurd (List.mem_filter.mp hKept).2 Bool.false_ne_true
  case active =>
    exact fun tx hTx => h.active tx (active_purge_subset l through hTx)
  case named =>
    intro e hMem tx hTx
    rw [entries_purge] at hMem
    rcases mem_purgedEntries hMem with ⟨txid, rfl⟩ | hBefore
    · cases hTx
    · exact h.named e hBefore tx hTx

end Settled

end TierTree.Ledger
