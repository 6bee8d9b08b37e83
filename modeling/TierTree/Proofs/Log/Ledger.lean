import TierTree.Log.Journal

/-!
What entries commit. Every commit takes up the writes of its transaction that
stand before it, and a write without a commit is left over.
-/

namespace TierTree

namespace LogEntry

/-- The number that an entry carries. -/
def number? : LogEntry → Option Txid
  | write _ _ => none
  | commit _ txid => some txid
  | checkpoint txid => some txid

/-- The number under which an entry commits. -/
def commitNumber? : LogEntry → Option Txid
  | commit _ txid => some txid
  | _ => none

end LogEntry

section Max
variable {a b c : Txid}

theorem max_of_le (h : a ≤ b) : max a b = b := if_pos h

theorem max_of_ge (h : b ≤ a) : max a b = a := by
  by_cases hLe : a ≤ b
  · rw [max_of_le hLe, UInt64.le_antisymm hLe h]
  · exact if_neg hLe

theorem toNat_max (a b : Txid) : (max a b).toNat = max a.toNat b.toNat := by
  rcases UInt64.le_total a b with h | h
  · rw [max_of_le h, Nat.max_eq_right (UInt64.le_iff_toNat_le.mp h)]
  · rw [max_of_ge h, Nat.max_eq_left (UInt64.le_iff_toNat_le.mp h)]

theorem max_le_of_le (hLeft : a ≤ c) (hRight : b ≤ c) : max a b ≤ c := by
  rw [UInt64.le_iff_toNat_le] at *
  rw [toNat_max]
  omega

theorem left_le_max (a b : Txid) : a ≤ max a b := by
  rw [UInt64.le_iff_toNat_le, toNat_max]
  omega

theorem right_le_max (a b : Txid) : b ≤ max a b := by
  rw [UInt64.le_iff_toNat_le, toNat_max]
  omega

end Max

namespace Ledger

variable {l : Ledger} {entries more : List LogEntry} {pending : List (TransactionId × String)}

/-- Every transaction that entries commit, after the writes in `pending`. -/
def commits : List (TransactionId × String) → List LogEntry → List CommittedRecord
  | _, [] => []
  | pending, .write tx payload :: rest => commits (pending ++ [(tx, payload)]) rest
  | pending, .commit tx txid :: rest =>
      ⟨txid, (pending.filter (·.1 = tx)).map (·.2)⟩ :: commits (pending.filter (·.1 ≠ tx)) rest
  | pending, .checkpoint _ :: rest => commits pending rest

/-- The writes that no commit has taken up in the end. -/
def leftover : List (TransactionId × String) → List LogEntry → List (TransactionId × String)
  | pending, [] => pending
  | pending, .write tx payload :: rest => leftover (pending ++ [(tx, payload)]) rest
  | pending, .commit tx _ :: rest => leftover (pending.filter (·.1 ≠ tx)) rest
  | pending, .checkpoint _ :: rest => leftover pending rest

theorem collect_eq_filter (after : Txid) :
    collect after pending entries = (commits pending entries).filter (after < ·.txid) := by
  induction entries generalizing pending with
  | nil => rfl
  | cons e rest ih =>
      cases e with
      | write tx payload => exact ih
      | commit tx txid =>
          rw [collect, commits, List.filter_cons, ih]
          simp only [decide_eq_true_eq]
      | checkpoint txid => exact ih

/-- What is collected since a number are the transactions committed above it. -/
theorem committedSince_eq_filter (l : Ledger) (after : Txid) :
    l.committedSince after = (commits [] l.entries).filter (after < ·.txid) :=
  collect_eq_filter after

theorem commits_append :
    commits pending (entries ++ more) =
      commits pending entries ++ commits (leftover pending entries) more := by
  induction entries generalizing pending with
  | nil => rfl
  | cons e rest ih =>
      cases e with
      | write tx payload => exact ih
      | commit tx txid => rw [List.cons_append, commits, ih, commits, leftover, List.cons_append]
      | checkpoint txid => exact ih

/-- A write left over was there before or is one of the entries. -/
theorem mem_leftover {w : TransactionId × String} (h : w ∈ leftover pending entries) :
    w ∈ pending ∨ .write w.1 w.2 ∈ entries := by
  induction entries generalizing pending with
  | nil => exact .inl h
  | cons e rest ih =>
      cases e with
      | write tx payload =>
          rcases ih h with hPending | hRest
          · rcases List.mem_append.mp hPending with hBefore | hNew
            · exact .inl hBefore
            · rw [List.mem_singleton.mp hNew]
              exact .inr List.mem_cons_self
          · exact .inr (List.mem_cons_of_mem _ hRest)
      | commit tx txid =>
          rcases ih h with hPending | hRest
          · exact .inl (List.mem_filter.mp hPending).1
          · exact .inr (List.mem_cons_of_mem _ hRest)
      | checkpoint txid =>
          rcases ih h with hPending | hRest
          · exact .inl hPending
          · exact .inr (List.mem_cons_of_mem _ hRest)

theorem mem_commits {r : CommittedRecord} (h : r ∈ commits pending entries) :
    ∃ tx, .commit tx r.txid ∈ entries := by
  induction entries generalizing pending with
  | nil => cases h
  | cons e rest ih =>
      cases e with
      | write tx payload =>
          obtain ⟨tx', hMem⟩ := ih h
          exact ⟨tx', List.mem_cons_of_mem _ hMem⟩
      | commit tx txid =>
          rcases List.mem_cons.mp h with rfl | hRest
          · exact ⟨tx, List.mem_cons_self⟩
          · obtain ⟨tx', hMem⟩ := ih hRest
            exact ⟨tx', List.mem_cons_of_mem _ hMem⟩
      | checkpoint txid =>
          obtain ⟨tx', hMem⟩ := ih h
          exact ⟨tx', List.mem_cons_of_mem _ hMem⟩

/-- The transactions that entries commit have the numbers of the commits. -/
theorem map_txid_commits (pending : List (TransactionId × String)) (entries : List LogEntry) :
    (commits pending entries).map (·.txid) = entries.filterMap LogEntry.commitNumber? := by
  induction entries generalizing pending with
  | nil => rfl
  | cons e rest ih =>
      cases e with
      | write tx payload => exact ih _
      | commit tx txid =>
          rw [commits, List.map_cons, ih]
          rfl
      | checkpoint txid => exact ih _

section Stored

theorem entries_foldl_record (l : Ledger) :
    (entries.foldl record l).entries = l.entries ++ entries := by
  induction entries generalizing l with
  | nil => simp
  | cons e rest ih =>
      rw [List.foldl_cons, ih]
      cases e <;> simp [record]

@[simp] theorem entries_ofEntries (entries : List LogEntry) :
    (ofEntries entries).entries = entries :=
  entries_foldl_record _

theorem ofEntries_append (entries : List LogEntry) (e : LogEntry) :
    ofEntries (entries ++ [e]) = (ofEntries entries).record e := by
  simp [ofEntries, replaceEntries, List.foldl_append]

end Stored

theorem txidOf?_mem {id : TransactionId} {txid : Txid} (h : txidOf? entries id = some txid) :
    .commit id txid ∈ entries := by
  rw [txidOf?] at h
  obtain ⟨e, hMem, hEntry⟩ := List.exists_of_findSome?_eq_some h
  split at hEntry
  next tx txid' =>
    split at hEntry
    next hId =>
      cases hEntry
      exact hId ▸ List.mem_reverse.mp hMem
    next => cases hEntry
  next => cases hEntry

end Ledger

end TierTree
