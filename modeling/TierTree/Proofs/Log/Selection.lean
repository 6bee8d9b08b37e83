import TierTree.Proofs.Log.Ledger

/-!
Entries that are left out. A log that forgets whole transactions commits the
others as before, and a purge keeps what is above it and what is under way
without ever lowering the last number.
-/

namespace TierTree

namespace Ledger

variable {l : Ledger} {entries : List LogEntry} {id : TransactionId} {through : Txid}

section Written

/-- The payloads that a transaction has written. -/
def written (id : TransactionId) (entries : List LogEntry) : List String :=
  entries.filterMap fun
    | .write tx payload => if tx = id then some payload else none
    | _ => none

theorem written_append (id : TransactionId) (entries more : List LogEntry) :
    written id (entries ++ more) = written id entries ++ written id more :=
  List.filterMap_append

theorem written_eq_nil (h : ∀ payload, .write id payload ∉ entries) : written id entries = [] := by
  rw [written, List.filterMap_eq_nil_iff]
  intro e hMem
  cases e with
  | write tx payload =>
      have hOther : tx ≠ id := fun hSame => h payload (hSame ▸ hMem)
      simp [hOther]
  | commit tx txid => rfl
  | checkpoint txid => rfl

/-- Everything that a transaction without a commit has written is left over. -/
theorem leftover_of_uncommitted {pending : List (TransactionId × String)}
    (h : ∀ txid, .commit id txid ∉ entries) :
    ((leftover pending entries).filter (·.1 = id)).map (·.2) =
      (pending.filter (·.1 = id)).map (·.2) ++ written id entries := by
  induction entries generalizing pending with
  | nil => simp [leftover, written]
  | cons e rest ih =>
      have hRest : ∀ txid, .commit id txid ∉ rest :=
        fun txid hMem => h txid (List.mem_cons_of_mem _ hMem)
      cases e with
      | write tx payload =>
          rw [leftover, ih hRest]
          by_cases hSame : tx = id <;> simp [written, hSame]
      | commit tx txid =>
          have hOther : tx ≠ id := fun hSame => h txid (hSame ▸ List.mem_cons_self)
          have hKeeps : (pending.filter (·.1 ≠ tx)).filter (·.1 = id) =
              pending.filter (·.1 = id) := by
            rw [List.filter_filter]
            apply List.filter_congr
            intro w _
            by_cases hSame : w.1 = id <;> simp [hSame, hOther.symm]
          rw [leftover, ih hRest, hKeeps]
          rfl
      | checkpoint txid =>
          rw [leftover, ih hRest]
          rfl

/-- A commit takes up all that its transaction has written. -/
theorem commits_append_commit (h : ∀ txid, .commit id txid ∉ entries) (txid : Txid) :
    commits [] (entries ++ [.commit id txid]) =
      commits [] entries ++ [⟨txid, written id entries⟩] := by
  rw [commits_append, commits, commits, leftover_of_uncommitted h]
  rfl

end Written

section Whole
variable {stays : TransactionId → Bool} {counts : Txid → Bool} {keep : LogEntry → Bool}

/-- A choice of entries that takes all writes of a transaction and its commits,
or none of them. The transactions that stay are told by their numbers. -/
structure Whole (entries : List LogEntry) (stays : TransactionId → Bool) (counts : Txid → Bool)
    (keep : LogEntry → Bool) : Prop where
  write : ∀ tx payload, keep (.write tx payload) = stays tx
  commit : ∀ {tx txid}, .commit tx txid ∈ entries →
    keep (.commit tx txid) = stays tx ∧ counts txid = stays tx

theorem commit_mem_append_write {tx : TransactionId} {payload : String} {txid : Txid}
    (h : .commit id txid ∈ entries ++ [.write tx payload]) : .commit id txid ∈ entries := by
  rcases List.mem_append.mp h with hBefore | hNew
  · exact hBefore
  · cases List.mem_singleton.mp hNew

theorem commit_mem_append_commit {tx : TransactionId} {txid next : Txid}
    (h : .commit id txid ∈ entries ++ [.commit tx next]) :
    .commit id txid ∈ entries ∨ id = tx ∧ txid = next := by
  rcases List.mem_append.mp h with hBefore | hNew
  · exact .inl hBefore
  · cases List.mem_singleton.mp hNew
    exact .inr ⟨rfl, rfl⟩

/-- What whole transactions commit are the commits of those that stay. -/
theorem commits_filter (h : Whole entries stays counts keep)
    (pending : List (TransactionId × String)) :
    commits (pending.filter (stays ·.1)) (entries.filter keep) =
      (commits pending entries).filter (counts ·.txid) := by
  induction entries generalizing pending with
  | nil => rfl
  | cons e rest ih =>
      have hRest : Whole rest stays counts keep :=
        ⟨h.write, fun hMem => h.commit (List.mem_cons_of_mem _ hMem)⟩
      cases e with
      | write tx payload =>
          have hStep := ih hRest (pending ++ [(tx, payload)])
          rw [List.filter_cons, h.write]
          cases hStays : stays tx with
          | true => simpa [commits, hStays] using hStep
          | false => simpa [commits, hStays] using hStep
      | commit tx txid =>
          obtain ⟨hKeep, hCounts⟩ := h.commit List.mem_cons_self
          have hStep := ih hRest (pending.filter (·.1 ≠ tx))
          rw [List.filter_filter] at hStep
          rw [List.filter_cons, hKeep, commits, List.filter_cons, hCounts, ← hStep]
          cases hStays : stays tx with
          | true =>
              have hOwn : (pending.filter (stays ·.1)).filter (·.1 = tx) =
                  pending.filter (·.1 = tx) := by
                rw [List.filter_filter]
                apply List.filter_congr
                intro w _
                by_cases hSame : w.1 = tx <;> simp [hSame, hStays]
              simp only [if_true, commits, hOwn, List.filter_filter]
              congr 3
              funext w
              exact Bool.and_comm ..
          | false =>
              have hOthers : (pending.filter fun w => stays w.1 && decide (w.1 ≠ tx)) =
                  pending.filter (stays ·.1) := by
                apply List.filter_congr
                intro w _
                by_cases hSame : w.1 = tx <;> simp [hSame, hStays]
              simp only [Bool.false_eq_true, if_false, hOthers]
      | checkpoint txid =>
          rw [List.filter_cons]
          split
          · exact ih hRest pending
          · exact ih hRest pending

/-- Where every number counts, nothing that was committed is taken back. -/
theorem commits_filter_eq (h : Whole entries stays (fun _ => true) keep) :
    commits [] (entries.filter keep) = commits [] entries :=
  (commits_filter h []).trans (List.filter_eq_self.mpr fun _ _ => rfl)

theorem written_filter (h : Whole entries stays counts keep) (hStays : stays id = true) :
    written id (entries.filter keep) = written id entries := by
  rw [written, written, List.filterMap_filter]
  congr 1
  funext e
  cases e with
  | write tx payload =>
      rw [h.write]
      by_cases hSame : tx = id <;> simp [hSame, hStays]
  | commit tx txid => simp
  | checkpoint txid => simp

end Whole

section Highest

/-- The highest number that entries carry, zero if they carry none. -/
def highest : List LogEntry → Txid
  | [] => 0
  | .write _ _ :: rest => highest rest
  | .commit _ txid :: rest => max txid (highest rest)
  | .checkpoint txid :: rest => max txid (highest rest)

theorem le_highest {e : LogEntry} (hMem : e ∈ entries) {txid : Txid}
    (hNumber : e.number? = some txid) : txid ≤ highest entries := by
  induction entries with
  | nil => cases hMem
  | cons first rest ih =>
      have hRest : highest rest ≤ highest (first :: rest) := by
        rw [UInt64.le_iff_toNat_le]
        cases first <;> simp only [highest, toNat_max]
        all_goals omega
      rcases List.mem_cons.mp hMem with rfl | hMem
      · rw [UInt64.le_iff_toNat_le]
        cases e <;> cases hNumber
        all_goals
          simp only [highest, toNat_max]
          omega
      · exact UInt64.le_trans (ih hMem) hRest

theorem lastTxid_foldl_record (l : Ledger) (entries : List LogEntry) :
    (entries.foldl record l).lastTxid = max l.lastTxid (highest entries) := by
  induction entries generalizing l with
  | nil => exact (max_of_ge UInt64.zero_le).symm
  | cons e rest ih =>
      rw [List.foldl_cons, ih, ← UInt64.toNat_inj]
      cases e <;> simp only [record, highest, toNat_max]
      all_goals omega

theorem lastTxid_replaceEntries (l : Ledger) (entries : List LogEntry) :
    (l.replaceEntries entries).lastTxid = max l.lastTxid (highest entries) :=
  lastTxid_foldl_record { l with entries := [] } entries

theorem lastTxid_ofEntries (entries : List LogEntry) :
    (ofEntries entries).lastTxid = highest entries := by
  rw [ofEntries, lastTxid_replaceEntries]
  exact max_of_le UInt64.zero_le

theorem highest_append (entries more : List LogEntry) :
    highest (entries ++ more) = max (highest entries) (highest more) := by
  induction entries with
  | nil => exact (max_of_le UInt64.zero_le).symm
  | cons e rest ih =>
      rw [List.cons_append]
      cases e with
      | write tx payload => exact ih
      | commit tx txid =>
          rw [highest, highest, ih, ← UInt64.toNat_inj]
          simp only [toNat_max, Nat.max_assoc]
      | checkpoint txid =>
          rw [highest, highest, ih, ← UInt64.toNat_inj]
          simp only [toNat_max, Nat.max_assoc]

theorem highest_append_write (entries : List LogEntry) (id : TransactionId) (payload : String) :
    highest (entries ++ [.write id payload]) = highest entries := by
  rw [highest_append]
  exact max_of_ge UInt64.zero_le

theorem highest_append_commit (entries : List LogEntry) (id : TransactionId) (txid : Txid) :
    highest (entries ++ [.commit id txid]) = max (highest entries) txid := by
  rw [highest_append]
  exact congrArg _ (max_of_ge UInt64.zero_le)

theorem highest_filter {keep : LogEntry → Bool}
    (h : ∀ e ∈ entries, e.number?.isSome = true → keep e = true) :
    highest (entries.filter keep) = highest entries := by
  induction entries with
  | nil => rfl
  | cons e rest ih =>
      have hRest := ih fun d hMem => h d (List.mem_cons_of_mem _ hMem)
      have hFirst := h e List.mem_cons_self
      cases e with
      | write tx payload =>
          rw [List.filter_cons]
          split
          · exact hRest
          · exact hRest
      | commit tx txid => rw [List.filter_cons, if_pos (hFirst rfl), highest, highest, hRest]
      | checkpoint txid => rw [List.filter_cons, if_pos (hFirst rfl), highest, highest, hRest]

/-- What is above a number stays, and a checkpoint stands for the rest. -/
theorem max_checkpointTxid {keep : LogEntry → Bool} {least : Txid} (hLeast : through ≤ least)
    (hCommit : ∀ tx txid, keep (.commit tx txid) = decide (through < txid))
    (hCheckpoint : ∀ txid, keep (.checkpoint txid) = false) :
    max (checkpointTxid least entries) (highest (entries.filter keep)) =
      max least (highest entries) := by
  induction entries generalizing least with
  | nil => rfl
  | cons e rest ih =>
      rw [List.filter_cons]
      cases e with
      | write tx payload =>
          split
          · exact ih hLeast
          · exact ih hLeast
      | commit tx txid =>
          have hRest := congrArg UInt64.toNat (ih hLeast)
          rw [toNat_max, toNat_max] at hRest
          rw [hCommit, ← UInt64.toNat_inj]
          split
          next hAbove =>
            simp only [highest, toNat_max]
            change max (checkpointTxid least rest).toNat _ = _
            omega
          next hBelow =>
            have hSmall : txid ≤ least :=
              UInt64.le_trans (UInt64.not_lt.mp (by simpa using hBelow)) hLeast
            have hSmall := UInt64.le_iff_toNat_le.mp hSmall
            simp only [highest, toNat_max]
            change max (checkpointTxid least rest).toNat _ = _
            omega
      | checkpoint txid =>
          have hLater : through ≤ max least txid := by
            rw [UInt64.le_iff_toNat_le, toNat_max]
            have := UInt64.le_iff_toNat_le.mp hLeast
            omega
          have hRest := congrArg UInt64.toNat (ih hLater)
          rw [toNat_max, toNat_max, toNat_max] at hRest
          rw [hCheckpoint, ← UInt64.toNat_inj]
          simp only [Bool.false_eq_true, if_false, highest, toNat_max]
          change max (checkpointTxid (max least txid) rest).toNat _ = _
          omega

theorem highest_purgedEntries (l : Ledger) (through : Txid) :
    highest (l.purgedEntries through) = max through (highest l.entries) :=
  max_checkpointTxid (UInt64.le_refl _) (fun _ _ => rfl) (fun _ => rfl)

/-- A purge raises the last number to its own at least. -/
theorem lastTxid_purge (h : highest l.entries = l.lastTxid) (through : Txid) :
    (l.purge through).lastTxid = max l.lastTxid through := by
  rw [purge, lastTxid_replaceEntries, highest_purgedEntries, h, ← UInt64.toNat_inj]
  simp only [toNat_max]
  omega

theorem highest_purge (h : highest l.entries = l.lastTxid) (through : Txid) :
    highest (l.purgedEntries through) = (l.purge through).lastTxid := by
  rw [highest_purgedEntries, lastTxid_purge h, h, ← UInt64.toNat_inj, toNat_max, toNat_max,
    Nat.max_comm]

end Highest

section Discard

theorem whole_discard (h : ∀ txid, .commit id txid ∉ entries) :
    Whole entries (· ≠ id) (fun _ => true) fun
      | .write tx _ => tx ≠ id
      | _ => true := by
  constructor
  case write =>
    intro tx payload
    rfl
  case commit =>
    intro tx txid hMem
    have hOther : tx ≠ id := fun hSame => h txid (hSame ▸ hMem)
    simp [hOther]

/-- Forgetting a transaction without a commit takes no other one back. -/
theorem commits_discard (h : ∀ txid, .commit id txid ∉ l.entries) :
    commits [] (l.discard id).entries = commits [] l.entries :=
  commits_filter_eq (whole_discard h)

theorem written_discard {other : TransactionId} (h : ∀ txid, .commit id txid ∉ l.entries)
    (hOther : other ≠ id) : written other (l.discard id).entries = written other l.entries :=
  written_filter (whole_discard h) (decide_eq_true hOther)

theorem highest_discard (l : Ledger) (id : TransactionId) :
    highest (l.discard id).entries = highest l.entries := by
  apply highest_filter
  intro e _ hNumber
  cases e with
  | write tx payload => cases hNumber
  | commit tx txid => rfl
  | checkpoint txid => rfl

end Discard

section Purge

theorem mem_purgedEntries {e : LogEntry} (h : e ∈ l.purgedEntries through) :
    (∃ txid, e = .checkpoint txid) ∨ e ∈ l.entries := by
  rcases List.mem_cons.mp h with rfl | hKept
  · exact .inl ⟨_, rfl⟩
  · exact .inr (List.mem_filter.mp hKept).1

theorem commit_mem_of_purged {txid : Txid} (h : .commit id txid ∈ l.purgedEntries through) :
    .commit id txid ∈ l.entries := by
  rcases mem_purgedEntries h with ⟨_, hCheckpoint⟩ | hMem
  · cases hCheckpoint
  · exact hMem

/-- A checkpoint that a purge leaves goes up to its number, or to that of one
there was before. -/
theorem checkpointTxid_le {bound : Txid} (hThrough : through ≤ bound)
    (h : ∀ txid, .checkpoint txid ∈ entries → txid ≤ bound) :
    checkpointTxid through entries ≤ bound := by
  unfold checkpointTxid
  induction entries generalizing through with
  | nil => exact hThrough
  | cons e rest ih =>
      have hRest : ∀ txid, .checkpoint txid ∈ rest → txid ≤ bound :=
        fun txid hMem => h txid (List.mem_cons_of_mem _ hMem)
      rw [List.foldl_cons]
      cases e with
      | write tx payload => exact ih hThrough hRest
      | commit tx txid => exact ih hThrough hRest
      | checkpoint txid => exact ih (max_le_of_le hThrough (h txid List.mem_cons_self)) hRest

theorem entries_purge (l : Ledger) (through : Txid) :
    (l.purge through).entries = l.purgedEntries through :=
  entries_foldl_record _

/-- Entries put no transaction under way. -/
theorem active_foldl_record_subset (l : Ledger) :
    (entries.foldl record l).active ⊆ l.active := by
  induction entries generalizing l with
  | nil => exact List.Subset.refl _
  | cons e rest ih =>
      rw [List.foldl_cons]
      refine List.Subset.trans (ih (l.record e)) ?_
      cases e with
      | write tx payload => exact List.Subset.refl _
      | commit tx txid => exact List.filter_sublist.subset
      | checkpoint txid => exact List.Subset.refl _

theorem active_foldl_record (h : ∀ id ∈ l.active, ∀ txid, .commit id txid ∉ entries) :
    (entries.foldl record l).active = l.active := by
  induction entries generalizing l with
  | nil => rfl
  | cons e rest ih =>
      have hStep : (l.record e).active = l.active := by
        cases e with
        | write tx payload => rfl
        | commit tx txid =>
            apply List.filter_eq_self.mpr
            intro id hId
            apply decide_eq_true
            rintro rfl
            exact h id hId txid List.mem_cons_self
        | checkpoint txid => rfl
      rw [List.foldl_cons, ih, hStep]
      intro id hId txid hMem
      exact h id (hStep ▸ hId) txid (List.mem_cons_of_mem _ hMem)

/-- Nothing is under way in a ledger of stored entries. -/
theorem active_ofEntries (entries : List LogEntry) : (ofEntries entries).active = [] := by
  apply active_foldl_record (l := { empty with entries := [] })
  intro id hKnown
  cases hKnown

theorem active_purge_subset (l : Ledger) (through : Txid) :
    (l.purge through).active ⊆ l.active :=
  active_foldl_record_subset { l with entries := [] }

/-- A purge ends no transaction that is under way. -/
theorem active_purge (h : ∀ id ∈ l.active, ∀ txid, .commit id txid ∉ l.entries) (through : Txid) :
    (l.purge through).active = l.active := by
  apply active_foldl_record (l := { l with entries := [] })
  intro id hId txid hMem
  exact h id hId txid (commit_mem_of_purged hMem)

theorem txidOf?_of_mem {txid : Txid} (hMem : .commit id txid ∈ entries)
    (hOnce : ∀ number, .commit id number ∈ entries → number = txid) :
    txidOf? entries id = some txid := by
  cases hFound : txidOf? entries id with
  | none =>
      rw [txidOf?, List.findSome?_eq_none_iff] at hFound
      simpa using hFound _ (List.mem_reverse.mpr hMem)
  | some number => rw [hOnce number (txidOf?_mem hFound)]

theorem txidOf?_eq_none (h : ∀ txid, .commit id txid ∉ entries) : txidOf? entries id = none := by
  cases hFound : txidOf? entries id with
  | none => rfl
  | some txid => exact absurd (txidOf?_mem hFound) (h txid)

/-- Whether the writes of a transaction outlive a purge. -/
def staysAbove (l : Ledger) (through : Txid) (id : TransactionId) : Bool :=
  match txidOf? l.entries id with
  | some txid => through < txid
  | none => id ∈ l.active

theorem whole_outlives
    (hOnce : ∀ id a b, .commit id a ∈ l.entries → .commit id b ∈ l.entries → a = b)
    (through : Txid) :
    Whole l.entries (l.staysAbove through) (through < ·) (l.outlives through) := by
  constructor
  case write =>
    intro tx payload
    rfl
  case commit =>
    intro tx txid hMem
    have hNumber : txidOf? l.entries tx = some txid :=
      txidOf?_of_mem hMem fun number hOther => hOnce tx number txid hOther hMem
    rw [staysAbove, hNumber]
    exact ⟨rfl, rfl⟩

/-- A purge drops the transactions up to its number and no other one. -/
theorem commits_purge
    (hOnce : ∀ id a b, .commit id a ∈ l.entries → .commit id b ∈ l.entries → a = b)
    (through : Txid) :
    commits [] (l.purge through).entries = (commits [] l.entries).filter (through < ·.txid) := by
  rw [entries_purge]
  exact commits_filter (whole_outlives hOnce through) []

/-- A purge keeps what a transaction under way has written. -/
theorem written_purge
    (hOnce : ∀ id a b, .commit id a ∈ l.entries → .commit id b ∈ l.entries → a = b)
    (hActive : id ∈ l.active) (h : ∀ txid, .commit id txid ∉ l.entries) (through : Txid) :
    written id (l.purge through).entries = written id l.entries := by
  have hStays : l.staysAbove through id = true := by
    rw [staysAbove, txidOf?_eq_none h]
    exact decide_eq_true hActive
  rw [entries_purge]
  exact written_filter (whole_outlives hOnce through) hStays

end Purge

end Ledger

end TierTree
