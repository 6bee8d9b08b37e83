import TierTree.Proofs.Log.History
import TierTree.Proofs.Log.Journal
import TierTree.Proofs.Log.Selection

/-!
Ledgers with any number of transactions under way. A ledger commits what its
answered calls say, whatever the order of the calls and wherever it is purged
or stored and read again between them.
-/

namespace TierTree.Ledger

variable {l : Ledger} {h : History} {tx : Transaction} {id : TransactionId} {payload : String}
  {through next : Txid}

section Answers

theorem check_cases (l : Ledger) (tx : Transaction) :
    (∃ e, l.check tx = .error e) ∨ tx.isActive = true ∧ tx.id ∈ l.active := by
  unfold check
  split
  next => exact .inl ⟨_, rfl⟩
  next hActive =>
    split
    next hKnown => exact .inr ⟨by simpa using hActive, hKnown⟩
    next => exact .inl ⟨_, rfl⟩

theorem writeEntry_of_error {e : TransactionError} (hCheck : l.check tx = .error e) :
    l.writeEntry tx payload = .error e := by
  rw [writeEntry, hCheck]
  rfl

theorem commitEntry_of_error {e : TransactionError} (hCheck : l.check tx = .error e) :
    l.commitEntry tx = .error (.refused e) := by
  rw [commitEntry, hCheck]

theorem refused_of_check {e : TransactionError} (hCheck : l.check tx = .error e) :
    (∀ payload, Journal.write l tx payload = (l, .error (refuseTransaction e))) ∧
    Journal.commit l tx = (l, .error (refuseTransaction e)) ∧
    Journal.rollback l tx = (l, .error (refuseTransaction e)) := by
  refine ⟨fun payload => ?_, ?_, ?_⟩
  · show Ledger.write _ _ _ = _
    rw [write, writeEntry_of_error hCheck]
  · show Ledger.commit _ _ = _
    rw [commit, commitEntry_of_error hCheck]
    rfl
  · show Ledger.rollback _ _ = _
    rw [rollback, hCheck]

section Active
variable (hActive : tx.isActive = true) (hKnown : tx.id ∈ l.active)
include hActive hKnown

theorem write_answer (payload : String) :
    Journal.write l tx payload =
      (l.record (.write tx.id payload), .ok { tx with writes := tx.writes + 1 }) := by
  show Ledger.write _ _ _ = _
  rw [write, writeEntry_of_active hActive hKnown]
  simp [Transaction.recordWrite, hActive]

theorem commit_answer (hNext : successor l.lastTxid = .ok next) :
    Journal.commit l tx =
      (l.record (.commit tx.id next), .ok ({ tx with state := .committed }, next)) := by
  have hLast : max l.lastTxid next = next := max_of_le (UInt64.le_of_lt (lt_of_successor hNext))
  show Ledger.commit _ _ = _
  rw [commit, commitEntry_of_active hActive hKnown hNext]
  simp [Transaction.commit, hActive, record, hLast, Except.map]

theorem commit_fault {f : Fault} (hFault : successor l.lastTxid = .error f) :
    Journal.commit l tx = (l, .error (.fault f)) := by
  show Ledger.commit _ _ = _
  rw [commit, commitEntry_of_fault hActive hKnown hFault]
  rfl

theorem rollback_answer :
    Journal.rollback l tx =
      (l.discard tx.id, .ok { tx with state := .rolledBack, writes := 0 }) := by
  show Ledger.rollback _ _ = _
  rw [rollback, check_of_active hActive hKnown]
  simp [Transaction.rollback, hActive]

end Active

end Answers

/-- Store the entries and make a ledger of them again. -/
def reload (l : Ledger) : Ledger := .ofEntries l.entries

/-- A ledger that has come about by the calls of a history. -/
structure Follows (l : Ledger) (h : History) : Prop where
  active : ∀ id, id ∈ l.active ↔ id ∈ h.inFlight
  committed : commits [] l.entries = h.committed
  written : ∀ id ∈ h.inFlight, written id l.entries = h.payloads id
  uncommitted : ∀ id ∈ h.inFlight, ∀ txid, .commit id txid ∉ l.entries
  once : ∀ id a b, .commit id a ∈ l.entries → .commit id b ∈ l.entries → a = b
  latest : highest l.entries = l.lastTxid
  known : ∀ e ∈ l.entries, ∀ id ∈ e.transaction?, id ∈ h.begun
  unwritten : ∀ id ∉ h.begun, h.payloads id = []

namespace Follows

theorem empty : Ledger.empty.Follows [] := by
  constructor <;> simp [Ledger.empty, commits, History.inFlight, History.committed, highest,
    History.payloads]

theorem uncommitted_of_active (hFollows : l.Follows h) (hKnown : id ∈ l.active) (txid : Txid) :
    .commit id txid ∉ l.entries :=
  hFollows.uncommitted id ((hFollows.active id).mp hKnown) txid

theorem begun_of_active (hFollows : l.Follows h) (hKnown : id ∈ l.active) : id ∈ h.begun :=
  History.begun_of_inFlight ((hFollows.active id).mp hKnown)

/-- The entries know nothing of a transaction that has not begun. -/
theorem unknown_of_fresh (hFollows : l.Follows h) (hFresh : id ∉ h.begun) {e : LogEntry}
    (hEntry : e.transaction? = some id) : e ∉ l.entries :=
  fun hMem => hFresh (hFollows.known e hMem id hEntry)

theorem start (hFollows : l.Follows h) (hFresh : id ∉ h.begun) :
    (l.start id).1.Follows (.began id :: h) := by
  constructor
  case active =>
    intro other
    show other ∈ id :: l.active.filter (· ≠ id) ↔ other ∈ id :: h.inFlight
    rw [List.mem_cons, List.mem_cons, List.mem_filter, hFollows.active]
    by_cases hSame : other = id <;> simp [hSame]
  case committed => exact hFollows.committed
  case written =>
    intro other hOther
    rcases List.mem_cons.mp hOther with rfl | hBefore
    · have hNone : Ledger.written other l.entries = [] :=
        written_eq_nil fun payload => hFollows.unknown_of_fresh hFresh rfl
      exact hNone.trans (hFollows.unwritten other hFresh).symm
    · exact hFollows.written other hBefore
  case uncommitted =>
    intro other hOther txid
    rcases List.mem_cons.mp hOther with rfl | hBefore
    · exact hFollows.unknown_of_fresh hFresh rfl
    · exact hFollows.uncommitted other hBefore txid
  case once => exact hFollows.once
  case latest => exact hFollows.latest
  case known =>
    intro e hMem other hOther
    exact List.mem_cons_of_mem _ (hFollows.known e hMem other hOther)
  case unwritten =>
    intro other hOther
    exact hFollows.unwritten other fun hBegun => hOther (List.mem_cons_of_mem _ hBegun)

/-- A write belongs to a transaction under way, so nothing that is committed changes. -/
theorem write (hFollows : l.Follows h) (hKnown : id ∈ l.active) (payload : String) :
    (l.record (.write id payload)).Follows (.wrote id payload :: h) := by
  constructor
  case active => exact hFollows.active
  case committed =>
    show commits [] (l.entries ++ [.write id payload]) = h.committed
    rw [commits_append, hFollows.committed]
    exact List.append_nil _
  case written =>
    intro other hOther
    show Ledger.written other (l.entries ++ [.write id payload]) = _
    rw [written_append, hFollows.written other hOther, History.payloads]
    by_cases hSame : id = other <;> simp [Ledger.written, hSame]
  case uncommitted =>
    intro other hOther txid hMem
    exact hFollows.uncommitted other hOther txid (commit_mem_append_write hMem)
  case once =>
    intro other a b hA hB
    exact hFollows.once other a b (commit_mem_append_write hA) (commit_mem_append_write hB)
  case latest =>
    show highest (l.entries ++ [.write id payload]) = l.lastTxid
    rw [highest_append_write, hFollows.latest]
  case known =>
    refine List.forall_mem_append.mpr ⟨hFollows.known, List.forall_mem_singleton.mpr ?_⟩
    rintro other ⟨⟩
    exact hFollows.begun_of_active hKnown
  case unwritten =>
    intro other hOther
    have hNotOwn : id ≠ other := fun hSame => hOther (hSame ▸ hFollows.begun_of_active hKnown)
    rw [History.payloads, if_neg hNotOwn]
    exact hFollows.unwritten other hOther

/-- A commit takes all that its transaction wrote, and only this is committed anew. -/
theorem commit (hFollows : l.Follows h) (hKnown : id ∈ l.active) (next : Txid) :
    (l.record (.commit id next)).Follows (.committed id next :: h) := by
  have hInFlight := (hFollows.active id).mp hKnown
  constructor
  case active =>
    intro other
    show other ∈ l.active.filter (· ≠ id) ↔ other ∈ h.inFlight.filter (· ≠ id)
    rw [List.mem_filter, List.mem_filter, hFollows.active]
  case committed =>
    show commits [] (l.entries ++ [.commit id next]) = _
    rw [commits_append_commit (hFollows.uncommitted id hInFlight), hFollows.committed,
      hFollows.written id hInFlight]
    rfl
  case written =>
    intro other hOther
    show Ledger.written other (l.entries ++ [.commit id next]) = _
    rw [written_append, hFollows.written other (List.mem_filter.mp hOther).1]
    exact List.append_nil _
  case uncommitted =>
    intro other hOther txid hMem
    obtain ⟨hBefore, hNotOwn⟩ := List.mem_filter.mp hOther
    rcases commit_mem_append_commit hMem with hOld | ⟨hOwn, _⟩
    · exact hFollows.uncommitted other hBefore txid hOld
    · exact of_decide_eq_true hNotOwn hOwn
  case once =>
    -- The committed transaction was under way, so none of the old commits is its own.
    intro other a b hA hB
    rcases commit_mem_append_commit hA with hOldA | ⟨rfl, rfl⟩
    · rcases commit_mem_append_commit hB with hOldB | ⟨rfl, rfl⟩
      · exact hFollows.once other a b hOldA hOldB
      · exact absurd hOldA (hFollows.uncommitted other hInFlight a)
    · rcases commit_mem_append_commit hB with hOldB | ⟨_, rfl⟩
      · exact absurd hOldB (hFollows.uncommitted other hInFlight b)
      · rfl
  case latest =>
    show highest (l.entries ++ [.commit id next]) = max l.lastTxid next
    rw [highest_append_commit, hFollows.latest]
  case known =>
    refine List.forall_mem_append.mpr ⟨hFollows.known, List.forall_mem_singleton.mpr ?_⟩
    rintro other ⟨⟩
    exact hFollows.begun_of_active hKnown
  case unwritten => exact hFollows.unwritten

theorem rollback (hFollows : l.Follows h) (hKnown : id ∈ l.active) :
    (l.discard id).Follows (.rolledBack id :: h) := by
  have hUncommitted := hFollows.uncommitted_of_active hKnown
  constructor
  case active =>
    intro other
    show other ∈ l.active.filter (· ≠ id) ↔ other ∈ h.inFlight.filter (· ≠ id)
    rw [List.mem_filter, List.mem_filter, hFollows.active]
  case committed => exact (commits_discard hUncommitted).trans hFollows.committed
  case written =>
    intro other hOther
    obtain ⟨hBefore, hNotOwn⟩ := List.mem_filter.mp hOther
    rw [written_discard hUncommitted (by simpa using hNotOwn)]
    exact hFollows.written other hBefore
  case uncommitted =>
    intro other hOther txid hMem
    exact hFollows.uncommitted other (List.mem_filter.mp hOther).1 txid (List.mem_filter.mp hMem).1
  case once =>
    intro other a b hA hB
    exact hFollows.once other a b (List.mem_filter.mp hA).1 (List.mem_filter.mp hB).1
  case latest => exact (highest_discard l id).trans hFollows.latest
  case known => exact fun e hMem => hFollows.known e (List.mem_filter.mp hMem).1
  case unwritten => exact hFollows.unwritten

/-- A purge forgets commits that it reaches, and writes of nothing that is under way. -/
theorem purge (hFollows : l.Follows h) (through : Txid) :
    (l.purge through).Follows (.purged through :: h) := by
  have hActive : (l.purge through).active = l.active :=
    active_purge (fun id hKnown => hFollows.uncommitted_of_active hKnown) through
  have hCommit : ∀ id txid, .commit id txid ∈ (l.purge through).entries →
      .commit id txid ∈ l.entries := by
    intro id txid hMem
    rw [entries_purge] at hMem
    exact commit_mem_of_purged hMem
  constructor
  case active =>
    intro other
    rw [hActive]
    exact hFollows.active other
  case committed => rw [commits_purge hFollows.once, hFollows.committed, History.committed]
  case written =>
    intro other hOther
    rw [written_purge hFollows.once ((hFollows.active other).mpr hOther)
      (hFollows.uncommitted other hOther)]
    exact hFollows.written other hOther
  case uncommitted =>
    intro other hOther txid hMem
    exact hFollows.uncommitted other hOther txid (hCommit other txid hMem)
  case once =>
    intro other a b hA hB
    exact hFollows.once other a b (hCommit other a hA) (hCommit other b hB)
  case latest =>
    rw [entries_purge]
    exact highest_purge hFollows.latest through
  case known =>
    intro e hMem other hOther
    rw [entries_purge] at hMem
    rcases mem_purgedEntries hMem with ⟨txid, rfl⟩ | hBefore
    · cases hOther
    · exact hFollows.known e hBefore other hOther
  case unwritten => exact hFollows.unwritten

theorem lastTxid_reload (hFollows : l.Follows h) : l.reload.lastTxid = l.lastTxid :=
  (lastTxid_ofEntries _).trans hFollows.latest

theorem reload (hFollows : l.Follows h) : l.reload.Follows (.reloaded :: h) := by
  have hEntries : l.reload.entries = l.entries := entries_ofEntries _
  constructor
  case active =>
    intro other
    rw [Ledger.reload, active_ofEntries]
    rfl
  case committed =>
    rw [hEntries]
    exact hFollows.committed
  case written =>
    intro other hOther
    cases hOther
  case uncommitted =>
    intro other hOther
    cases hOther
  case once =>
    rw [hEntries]
    exact hFollows.once
  case latest =>
    rw [hEntries, hFollows.lastTxid_reload]
    exact hFollows.latest
  case known =>
    rw [hEntries]
    exact hFollows.known
  case unwritten => exact hFollows.unwritten

end Follows


section Run

variable {x : Chronicle Ledger}

theorem check_of_refusal (hFollows : l.Follows h) {e : TransactionError}
    (hRefusal : h.refusal? tx = some e) : l.check tx = .error e := by
  rw [History.refusal?] at hRefusal
  split at hRefusal
  next hOver =>
    cases hRefusal
    simp [check, Transaction.isActive, hOver]
  next hActive =>
    split at hRefusal
    next => cases hRefusal
    next hUnknown =>
      cases hRefusal
      rw [← hFollows.active] at hUnknown
      simp only [ne_eq, Decidable.not_not] at hActive
      simp [check, Transaction.isActive, hActive, hUnknown]

theorem active_of_refusal (hFollows : l.Follows h) (hRefusal : h.refusal? tx = none) :
    tx.isActive = true ∧ tx.id ∈ l.active := by
  rw [History.refusal?] at hRefusal
  split at hRefusal
  next => cases hRefusal
  next hActive =>
    split at hRefusal
    next hKnown =>
      simp only [ne_eq, Decidable.not_not] at hActive
      exact ⟨decide_eq_true hActive, (hFollows.active _).mpr hKnown⟩
    next => cases hRefusal

/-- Every call leaves a ledger that follows what has been answered by then. -/
theorem perform_follows (hFollows : x.log.Follows x.history) (call : LogCall)
    (hFresh : ∀ id ∈ call.started?, id ∉ History.begun x.history) :
    (x.perform reload call).log.Follows (x.perform reload call).history := by
  cases call with
  | start id => exact hFollows.start (hFresh id rfl)
  | write tx payload =>
      rw [Chronicle.perform]
      rcases check_cases x.log tx with ⟨e, hCheck⟩ | ⟨hActive, hKnown⟩
      · rw [(refused_of_check hCheck).1 payload]
        exact hFollows
      · rw [write_answer hActive hKnown]
        exact hFollows.write hKnown payload
  | commit tx =>
      rw [Chronicle.perform]
      rcases check_cases x.log tx with ⟨e, hCheck⟩ | ⟨hActive, hKnown⟩
      · rw [(refused_of_check hCheck).2.1]
        exact hFollows
      · cases hNext : successor x.log.lastTxid with
        | error f =>
            rw [commit_fault hActive hKnown hNext]
            exact hFollows
        | ok next =>
            rw [commit_answer hActive hKnown hNext]
            exact hFollows.commit hKnown next
  | rollback tx =>
      rw [Chronicle.perform]
      rcases check_cases x.log tx with ⟨e, hCheck⟩ | ⟨hActive, hKnown⟩
      · rw [(refused_of_check hCheck).2.2]
        exact hFollows
      · rw [rollback_answer hActive hKnown]
        exact hFollows.rollback hKnown
  | purge through => exact hFollows.purge through
  | reload => exact hFollows.reload

/-- The ledger after calls in order, from an empty one on. -/
def chronicle (calls : List LogCall) : Chronicle Ledger :=
  calls.foldl (Chronicle.perform reload) ⟨.empty, []⟩

theorem chronicle_follows {calls : List LogCall}
    (hDistinct : (calls.filterMap LogCall.started?).Nodup) :
    (chronicle calls).log.Follows (chronicle calls).history := by
  have hNone : ∀ id ∈ calls.filterMap LogCall.started?, id ∉ History.begun [] :=
    fun _ _ hMem => by cases hMem
  exact foldl_of_fresh (fun x => History.begun x.history)
    (fun x : Chronicle Ledger => x.log.Follows x.history) (Chronicle.begun_perform reload)
    (fun _ call hFollows => perform_follows hFollows call) Follows.empty hDistinct hNone

/-- What a ledger has to be for its history: it commits what the history says,
refuses the transactions that are not under way without being changed, and
answers all others. -/
structure Refines (l : Ledger) (h : History) : Prop where
  committedSince : ∀ after,
    Journal.committedSince l after = h.committed.filter (after < ·.txid)
  refused : ∀ tx e, h.refusal? tx = some e →
    (∀ payload, Journal.write l tx payload = (l, .error (refuseTransaction e))) ∧
    Journal.commit l tx = (l, .error (refuseTransaction e)) ∧
    Journal.rollback l tx = (l, .error (refuseTransaction e))
  write : ∀ tx payload, h.refusal? tx = none →
    ∃ log, Journal.write l tx payload = (log, .ok { tx with writes := tx.writes + 1 })
  commit : ∀ tx next, h.refusal? tx = none → successor (Journal.lastTxid l) = .ok next →
    ∃ log, Journal.commit l tx = (log, .ok ({ tx with state := .committed }, next)) ∧
      Journal.lastTxid log = next
  rollback : ∀ tx, h.refusal? tx = none →
    ∃ log, Journal.rollback l tx = (log, .ok { tx with state := .rolledBack, writes := 0 }) ∧
      log.entries = l.entries.filter (·.transaction? ≠ some tx.id) ∧
      Journal.lastTxid log = Journal.lastTxid l
  purge : ∀ through,
    ∃ log, Journal.purge l through = (log, .ok ()) ∧
      Journal.lastTxid log = max (Journal.lastTxid l) through ∧
      ∀ id ∈ h.inFlight, written id log.entries = h.payloads id
  reload : Journal.lastTxid l.reload = Journal.lastTxid l ∧
    (∀ after, Journal.committedSince l.reload after = Journal.committedSince l after) ∧
    ∀ tx, tx.isActive = true → l.reload.check tx = .error (.unknown tx.id)

/-- Only writes of a transaction under way can be forgotten with it. -/
theorem entries_discard_eq (h : ∀ txid, .commit id txid ∉ l.entries) :
    (l.discard id).entries = l.entries.filter (·.transaction? ≠ some id) := by
  apply List.filter_congr
  intro e hMem
  cases e with
  | write tx payload => simp [LogEntry.transaction?]
  | commit tx txid =>
      have hOther : tx ≠ id := fun hSame => h txid (hSame ▸ hMem)
      simp [LogEntry.transaction?, hOther]
  | checkpoint txid => rfl

/-- A ledger that follows its history answers every call as the history says. -/
theorem Follows.refines (hFollows : l.Follows h) : l.Refines h := by
  constructor
  case committedSince =>
    intro after
    show l.committedSince after = _
    rw [committedSince_eq_filter, hFollows.committed]
  case refused => exact fun tx e hRefusal => refused_of_check (check_of_refusal hFollows hRefusal)
  case write =>
    intro tx payload hRefusal
    obtain ⟨hActive, hKnown⟩ := active_of_refusal hFollows hRefusal
    exact ⟨_, write_answer hActive hKnown payload⟩
  case commit =>
    intro tx next hRefusal hNext
    obtain ⟨hActive, hKnown⟩ := active_of_refusal hFollows hRefusal
    exact ⟨_, commit_answer hActive hKnown hNext,
      max_of_le (UInt64.le_of_lt (lt_of_successor hNext))⟩
  case rollback =>
    intro tx hRefusal
    obtain ⟨hActive, hKnown⟩ := active_of_refusal hFollows hRefusal
    exact ⟨_, rollback_answer hActive hKnown,
      entries_discard_eq (hFollows.uncommitted_of_active hKnown), rfl⟩
  case purge =>
    intro through
    exact ⟨_, rfl, lastTxid_purge hFollows.latest through, (hFollows.purge through).written⟩
  case reload =>
    refine ⟨hFollows.lastTxid_reload, fun after => ?_, fun tx hActive => ?_⟩
    · show l.reload.committedSince after = l.committedSince after
      rw [committedSince, committedSince, Ledger.reload, entries_ofEntries]
    · simp [check, hActive, Ledger.reload, active_ofEntries]

/-- A log in memory refines what its history says, after any calls over any
number of transactions that are distinct. -/
theorem chronicle_refines {calls : List LogCall}
    (hDistinct : (calls.filterMap LogCall.started?).Nodup) :
    (chronicle calls).log.Refines (chronicle calls).history :=
  (chronicle_follows hDistinct).refines

/-- Two transactions write in turn, and a purge drops the one that is over. -/
theorem chronicle_refines_interleaved :
    let calls : List LogCall :=
      [.start ⟨⟨1⟩⟩, .start ⟨⟨2⟩⟩, .write (.start ⟨⟨1⟩⟩) "a", .write (.start ⟨⟨2⟩⟩) "b",
        .commit ⟨⟨⟨1⟩⟩, .active, 1⟩, .purge 1, .write ⟨⟨⟨2⟩⟩, .active, 1⟩ "c",
        .commit ⟨⟨⟨2⟩⟩, .active, 2⟩, .reload]
    (chronicle calls).log.Refines (chronicle calls).history ∧
      Journal.committedSince (chronicle calls).log 0 = [⟨2, ["b", "c"]⟩] := by
  intro calls
  exact ⟨chronicle_refines (by decide), rfl⟩

end Run

end TierTree.Ledger
