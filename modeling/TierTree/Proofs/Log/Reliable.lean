import TierTree.Proofs.Log.File

/-!
Logs that do not fail. In memory nothing can go wrong, and a log in a file whose
appends and syncs go well does what its ledger does. What is recorded in such a log
stands behind everything that it committed before.
-/

namespace TierTree

/-- What is recorded next under an identifier is committed under the next number, behind
what the log committed before, unless the numbers are used up. -/
structure Journal.TakesIn {J : Type} [Journal J] (log : J) (id : TransactionId) : Prop where
  next : ∀ payload next, successor (Journal.lastTxid log) = .ok next →
    ∃ log', Journal.record log id payload = (log', .ok next) ∧ Journal.lastTxid log' = next ∧
      ∀ after, Journal.committedSince log' after = Journal.committedSince log after ++
        if after < next then [⟨next, [payload]⟩] else []
  full : ∀ payload f, successor (Journal.lastTxid log) = .error f →
    ∃ log', Journal.record log id payload = (log', .error (.fault f))

namespace Ledger

variable {l : Ledger} {id : TransactionId}

/-- A ledger takes in what is recorded in a transaction that it knows nothing of. -/
theorem takesIn_of_fresh (hActive : id ∉ l.active)
    (hUnknown : ∀ e ∈ l.entries, e.transaction? ≠ some id) : Journal.TakesIn l id := by
  have hLeft : ∀ w ∈ leftover [] l.entries, ¬ w.1 = id := by
    rintro w hMem rfl
    rcases mem_leftover hMem with hNone | hEntry
    · cases hNone
    · exact hUnknown _ hEntry rfl
  constructor
  case next =>
    intro payload next hNext
    have hNumber : successor l.lastTxid = .ok next := hNext
    refine ⟨(l.record (.write id payload)).record (.commit id next), ?_, ?_, fun after => ?_⟩
    · rw [record_of_fresh hActive, hNumber]
    · exact max_of_le (UInt64.le_of_lt (lt_of_successor hNumber))
    · have hCommits : commits [] (l.entries ++ [.write id payload, .commit id next]) =
          commits [] l.entries ++ [⟨next, [payload]⟩] := by
        have hOthers : (leftover [] l.entries).filter (·.1 = id) = [] :=
          List.filter_eq_nil_iff.mpr fun w hMem => by simpa using hLeft w hMem
        rw [commits_append, commits, commits, List.filter_append, hOthers]
        simp [commits]
      have hEntries : ((l.record (.write id payload)).record (.commit id next)).entries =
          l.entries ++ [.write id payload, .commit id next] := by
        simp [record]
      change committedSince _ after = committedSince l after ++ _
      rw [committedSince_eq_filter, committedSince_eq_filter, hEntries, hCommits,
        List.filter_append]
      by_cases hAfter : after < next <;> simp [hAfter]
  case full =>
    intro payload f hFull
    have hNumber : successor l.lastTxid = .error f := hFull
    exact ⟨_, by rw [record_of_fresh hActive, hNumber]⟩

end Ledger

namespace LogFile

/-- Nothing has gone wrong with a log, and nothing goes wrong with its file. -/
structure Reliable (log : LogFile) : Prop where
  intact : log.failed = false
  steady : log.sink.plan = .never

variable {log : LogFile}

theorem reliable_load (bytes : List UInt8) : (load bytes).Reliable := ⟨rfl, rfl⟩

theorem persist_of_reliable (h : log.Reliable) (e : LogEntry) :
    ∃ sink : Sink, sink.plan = .never ∧ log.persist e = ({ log with sink := sink }, .ok ()) := by
  obtain ⟨hIntact, hSteady⟩ := h
  refine ⟨{ log.sink with
    bytes := log.sink.bytes ++ Frame.encode e
    appends := log.sink.appends + 1
    syncs := log.sink.syncs + 1 }, hSteady, ?_⟩
  simp [persist, hIntact, appendDurably, Sink.append, Sink.sync, hSteady]

/-- What a call of a log comes to if the ledger alone decides. -/
def ByLedger {α : Type} (log : LogFile) (outcome : Ledger × α) (result : LogFile × α) : Prop :=
  ∃ sink : Sink, sink.plan = .never ∧
    result = ({ log with sink := sink, ledger := outcome.1 }, outcome.2)

theorem start_byLedger (log : LogFile) (id : TransactionId) :
    Journal.start log id =
      ({ log with ledger := (Journal.start log.ledger id).1 }, (Journal.start log.ledger id).2) :=
  rfl

theorem rollback_byLedger (log : LogFile) (tx : Transaction) :
    (Journal.rollback log tx).1 = { log with ledger := (Journal.rollback log.ledger tx).1 } :=
  rfl

theorem write_byLedger (h : log.Reliable) (tx : Transaction) (payload : String) :
    log.ByLedger (Journal.write log.ledger tx payload) (Journal.write log tx payload) := by
  change log.ByLedger (log.ledger.write tx payload) (log.write tx payload)
  unfold LogFile.write Ledger.write
  cases log.ledger.writeEntry tx payload with
  | error e => exact ⟨log.sink, h.steady, rfl⟩
  | ok entry =>
      obtain ⟨sink, hSteady, hPersist⟩ := persist_of_reliable h entry
      simp only [hPersist]
      exact ⟨sink, hSteady, rfl⟩

theorem commit_byLedger (h : log.Reliable) (tx : Transaction) :
    log.ByLedger (Journal.commit log.ledger tx) (Journal.commit log tx) := by
  change log.ByLedger (log.ledger.commit tx) (log.commit tx)
  unfold LogFile.commit Ledger.commit
  cases log.ledger.commitEntry tx with
  | error e => exact ⟨log.sink, h.steady, rfl⟩
  | ok entry =>
      obtain ⟨sink, hSteady, hPersist⟩ := persist_of_reliable h entry
      simp only [hPersist]
      exact ⟨sink, hSteady, rfl⟩

/-- A log that does not fail records what its ledger records. -/
theorem record_byLedger (h : log.Reliable) (id : TransactionId) (payload : String) :
    log.ByLedger (Journal.record log.ledger id payload) (Journal.record log id payload) := by
  rcases hStart : Journal.start log.ledger id with ⟨started, tx⟩
  have hOpened : LogFile.Reliable { log with ledger := started } := ⟨h.intact, h.steady⟩
  obtain ⟨sink, hSteady, hWriteFile⟩ := write_byLedger hOpened tx payload
  rcases hWrite : Journal.write started tx payload with ⟨written, (cause | f) | tx'⟩
  · simp only [hWrite] at hWriteFile
    refine ⟨sink, hSteady, ?_⟩
    simp only [Journal.record, start_byLedger, hStart, hWrite, hWriteFile, rollback_byLedger]
    cases tx.isActive <;> rfl
  · simp only [hWrite] at hWriteFile
    refine ⟨sink, hSteady, ?_⟩
    simp only [Journal.record, start_byLedger, hStart, hWrite, hWriteFile]
  · simp only [hWrite] at hWriteFile
    have hWritten : LogFile.Reliable { log with sink := sink, ledger := written } :=
      ⟨h.intact, hSteady⟩
    obtain ⟨sink', hSteady', hCommitFile⟩ := commit_byLedger hWritten tx'
    refine ⟨sink', hSteady', ?_⟩
    rcases hCommit : Journal.commit written tx' with ⟨committed, (cause | f) | ⟨done, next⟩⟩ <;>
      simp only [hCommit] at hCommitFile <;>
      simp only [Journal.record, start_byLedger, hStart, hWrite, hWriteFile, hCommit, hCommitFile,
        rollback_byLedger]
    cases tx'.isActive <;> rfl

/-- A log that does not fail goes on as one. -/
theorem ByLedger.reliable {α : Type} {outcome : Ledger × α} {result : LogFile × α}
    (h : log.ByLedger outcome result) (hLog : log.Reliable) : result.1.Reliable := by
  obtain ⟨sink, hSteady, rfl⟩ := h
  exact ⟨hLog.intact, hSteady⟩

theorem purge_reliable (h : log.Reliable) (through : Txid) :
    (Journal.purge log through).1.Reliable := by
  rcases log.purge_cases through with ⟨_, hPurge⟩ | ⟨_, _, hPurge⟩ | ⟨_, _, hPurge⟩ <;> rw [hPurge]
  · exact h
  · exact ⟨h.intact, h.steady⟩
  · constructor
    case intact => rfl
    case steady => simpa only [Sink.replace] using h.steady

theorem takesIn_of_reliable (h : log.Reliable) {id : TransactionId}
    (hLedger : Journal.TakesIn log.ledger id) : Journal.TakesIn log id := by
  constructor
  case next =>
    intro payload next hNext
    obtain ⟨sink, _, hRecord⟩ := record_byLedger h id payload
    obtain ⟨l, hDone, hLast, hSince⟩ := hLedger.next payload next hNext
    rw [hDone] at hRecord
    exact ⟨_, hRecord, hLast, hSince⟩
  case full =>
    intro payload f hFull
    obtain ⟨sink, _, hRecord⟩ := record_byLedger h id payload
    obtain ⟨l, hDone⟩ := hLedger.full payload f hFull
    rw [hDone] at hRecord
    exact ⟨_, hRecord⟩

end LogFile

end TierTree
