import TierTree.Proofs.Log.File
import TierTree.Proofs.Log.Lines
import TierTree.Proofs.Log.Refinement

/-!
What a step does to a log in a file. An append that fails is cut off, or the
log takes nothing more and something of the line may still be on disk: all of
it only if neither a sync nor a cut goes well.
-/

namespace TierTree

/-- What is appended can neither be made durable nor be cut off again. -/
def Sink.Stuck (s : Sink) : Prop :=
  s.failTruncate = true ∧ ∃ count, s.plan = .syncsAfter count ∧ count ≤ s.syncs

/-- A step of a log in a file: a call, failures that begin or end, or a place
for new files that is taken or free again. -/
inductive FileStep where
  | call (c : LogCall)
  | disturb (plan : FailurePlan) (failTruncate : Bool)
  | block (blocked : Bool)
  deriving DecidableEq, Repr

/-- The transaction that a step begins. -/
def FileStep.started? : FileStep → Option TransactionId
  | .call c => c.started?
  | _ => none

namespace LogFile

open TierTree.Frame (Feedless Lines encode readAll)

/-- Open the log again from its file. What is in the way of a new file, or keeps it
from being opened, is still there. -/
def reload (log : LogFile) : LogFile :=
  { load log.stored with blocked := log.blocked, denied := log.denied }

/-- A log that is opened again from its file takes its own place. -/
theorem reload_settled {log : LogFile} {records : List CommittedRecord} {last purged : Txid}
    {used : List TransactionId} (h : log.Settled records last purged used) :
    log.reload.Settled records last purged used := by
  rw [reload, h.attached.opens]
  exact load_settled h log.blocked

/-- Take a step. Refusals and faults leave a log to go on with. -/
def step (x : Chronicle LogFile) : FileStep → Chronicle LogFile
  | .call c => x.perform reload c
  | .disturb plan failTruncate =>
      ⟨{ x.log with sink := x.log.sink.setPlan plan failTruncate }, x.history⟩
  | .block blocked => ⟨{ x.log with blocked := blocked }, x.history⟩

/-- The entry that a step is about to append. -/
def appended? (log : LogFile) : FileStep → Option LogEntry
  | .call (.write tx payload) => (log.ledger.writeEntry tx payload).toOption
  | .call (.commit tx) => (log.ledger.commitEntry tx).toOption
  | _ => none

section Persist
variable {s : Sink} {line base left : List UInt8}

theorem appendDurably_cases (s : Sink) (line : List UInt8) :
    (∃ done, appendDurably s line = (done, .ok ()) ∧ done.bytes = s.bytes ++ line) ∨
    ∃ broken cause left, appendDurably s line = (broken, .error cause) ∧
      broken.bytes = s.bytes ++ left ∧ broken.failTruncate = s.failTruncate ∧
      (left = line.take (line.length / 2) ∧ (∃ count, s.plan = .tornAppendsAfter count) ∨
        left = line ∧ ∃ count, s.plan = .syncsAfter count ∧ count ≤ s.syncs) := by
  cases hPlan : s.plan with
  | never =>
      left
      simp [appendDurably, Sink.append, Sink.sync, hPlan]
  | tornAppendsAfter count =>
      by_cases hTorn : count ≤ s.appends
      · right
        simp [appendDurably, Sink.append, hPlan, hTorn]
      · left
        simp [appendDurably, Sink.append, Sink.sync, hPlan, hTorn]
  | syncsAfter count =>
      by_cases hFails : count ≤ s.syncs
      · right
        simp [appendDurably, Sink.append, Sink.sync, hPlan, hFails]
      · left
        simp [appendDurably, Sink.append, Sink.sync, hPlan, hFails]

/-- What a failed append has left in the file: a line that breaks off, or all
of the line where the sink was stuck. -/
inductive Leaves (s : Sink) (e : LogEntry) (left : List UInt8) : Prop where
  | torn : Feedless left → ¬ s.Stuck → Leaves s e left
  | whole : left = encode e → s.Stuck → Leaves s e left

/-- What bringing an entry to the disk comes to. -/
inductive Persisted (log : LogFile) (e : LogEntry) : LogFile × Except StorageError Unit → Prop where
  | refused {cause : StorageError} : log.failed = true → Persisted log e (log, .error cause)
  | done {sink : Sink} : log.failed = false → sink.bytes = log.sink.bytes ++ encode e →
      Persisted log e ({ log with sink := sink }, .ok ())
  | cut {sink : Sink} {cause : StorageError} : log.failed = false →
      sink.bytes = log.sink.bytes → Persisted log e ({ log with sink := sink }, .error cause)
  | left {sink : Sink} {cause : StorageError} {left : List UInt8} : log.failed = false →
      sink.bytes = log.sink.bytes ++ left → Leaves log.sink e left →
      Persisted log e ({ log with sink := sink, failed := true }, .error cause)

/-- An entry is brought to the disk, refused by a log that failed before, cut off
again, or left behind in a log that fails from now on. -/
theorem persist_spec (log : LogFile) (e : LogEntry) : Persisted log e (log.persist e) := by
  rw [persist]
  split
  next hFailed => exact .refused hFailed
  next hIntact =>
    have hIntact : log.failed = false := by simpa using hIntact
    rcases appendDurably_cases log.sink (encode e) with
      ⟨done, hAppend, hBytes⟩ | ⟨broken, cause, left, hAppend, hBytes, hKeeps, hLeft⟩
    · rw [hAppend]
      exact .done hIntact hBytes
    · rw [hAppend]
      simp only
      cases hCuts : log.sink.failTruncate with
      | false =>
          -- The cut goes well, though what it leaves may not be made durable.
          obtain ⟨hCut, _⟩ := cutBack_bytes hBytes (hKeeps.trans hCuts)
          split
          next sink hDone =>
            rw [show log.sink.bytes.length = log.sink.size from rfl, hDone] at hCut
            exact .cut hIntact hCut
          next sink cause' hFailed =>
            rw [show log.sink.bytes.length = log.sink.size from rfl, hFailed] at hCut
            have hNothing : sink.bytes = log.sink.bytes ++ [] := by
              rw [List.append_nil]
              exact hCut
            have hFree : ¬ log.sink.Stuck := fun hStuck => by cases hCuts.symm.trans hStuck.1
            exact .left hIntact hNothing (.torn Frame.feedless_nil hFree)
      | true =>
          have hStays : cutBack broken log.sink.size = (broken, .error .truncate) := by
            simp [cutBack, Sink.truncate, hKeeps, hCuts]
          rw [hStays]
          rcases hLeft with ⟨hHalf, count, hPlan⟩ | ⟨hWhole, hSync⟩
          · have hFree : ¬ log.sink.Stuck := by
              rintro ⟨_, _, hOther, _⟩
              cases hPlan.symm.trans hOther
            exact .left hIntact hBytes (.torn (hHalf ▸ Frame.feedless_half e) hFree)
          · exact .left hIntact hBytes (.whole hWhole ⟨hCuts, hSync⟩)

end Persist

/-- What steps go on with. -/
structure FileState where
  ledger : Ledger
  bytes : List UInt8
  failed : Bool
  history : History

def state (x : Chronicle LogFile) : FileState :=
  ⟨x.log.ledger, x.log.sink.bytes, x.log.failed, x.history⟩

/-- All that a step can do. -/
inductive Moves (x : Chronicle LogFile) (step : FileStep) : FileState → Prop where
  | idle : Moves x step (state x)
  | start {id : TransactionId} : step.started? = some id →
      Moves x step { state x with
        ledger := (x.log.ledger.start id).1, history := .began id :: x.history }
  | write {id : TransactionId} {payload : String} : x.log.failed = false →
      id ∈ x.log.ledger.active →
      Moves x step { state x with
        ledger := x.log.ledger.record (.write id payload)
        bytes := x.log.sink.bytes ++ encode (.write id payload)
        history := .wrote id payload :: x.history }
  | commit {id : TransactionId} {next : Txid} : x.log.failed = false →
      id ∈ x.log.ledger.active →
      Moves x step { state x with
        ledger := x.log.ledger.record (.commit id next)
        bytes := x.log.sink.bytes ++ encode (.commit id next)
        history := .committed id next :: x.history }
  | fail {id : TransactionId} {e : LogEntry} {left : List UInt8} : x.log.failed = false →
      x.log.appended? step = some e → e.transaction? = some id → id ∈ x.log.ledger.active →
      Leaves x.log.sink e left →
      Moves x step { state x with bytes := x.log.sink.bytes ++ left, failed := true }
  | rollback {id : TransactionId} : id ∈ x.log.ledger.active →
      Moves x step { state x with
        ledger := x.log.ledger.discard id, history := .rolledBack id :: x.history }
  | purge {through : Txid} {bytes : List UInt8} :
      Lines bytes (x.log.ledger.purgedEntries through) →
      Moves x step {
        ledger := x.log.ledger.purge through
        bytes := bytes
        failed := false
        history := .purged through :: x.history }
  | reload :
      Moves x step {
        ledger := .ofEntries (readAll x.log.sink.bytes).1
        bytes := x.log.sink.bytes.take (readAll x.log.sink.bytes).2
        failed := false
        history := .reloaded :: x.history }

section Moves
variable {x : Chronicle LogFile} {action : FileStep} {tx : Transaction} {id : TransactionId}
  {e : LogEntry} {payload : String}

/-- An entry that is not brought to the disk leaves the ledger alone. -/
theorem moves_of_error {log : LogFile} {cause : StorageError}
    (hSpec : Persisted x.log e (log, .error cause)) (hEntry : x.log.appended? action = some e)
    (hId : e.transaction? = some id) (hKnown : id ∈ x.log.ledger.active) :
    Moves x action (state ⟨log, x.history⟩) := by
  cases hSpec with
  | refused => exact .idle
  | cut hIntact hBytes =>
      simp only [state, hBytes]
      exact .idle
  | left hIntact hBytes hLeft =>
      simp only [state, hBytes]
      exact .fail hIntact hEntry hId hKnown hLeft

theorem write_moves (x : Chronicle LogFile) (tx : Transaction) (payload : String) :
    Moves x (.call (.write tx payload)) (state (step x (.call (.write tx payload)))) := by
  have hWrite : Journal.write x.log tx payload = x.log.write tx payload := rfl
  rw [step, Chronicle.perform, hWrite, LogFile.write]
  rcases Ledger.check_cases x.log.ledger tx with ⟨e, hCheck⟩ | ⟨hActive, hKnown⟩
  · rw [Ledger.writeEntry_of_error hCheck]
    exact .idle
  · have hMade : x.log.ledger.writeEntry tx payload = .ok (.write tx.id payload) :=
      Ledger.writeEntry_of_active hActive hKnown
    have hEntry : x.log.appended? (.call (.write tx payload)) = some (.write tx.id payload) := by
      rw [appended?, hMade]
      rfl
    have hSpec := persist_spec x.log (.write tx.id payload)
    rw [hMade]
    simp only
    split
    next log cause hPersist =>
      rw [hPersist] at hSpec
      exact moves_of_error hSpec hEntry rfl hKnown
    next log hPersist =>
      rw [hPersist] at hSpec
      cases hSpec with
      | done hIntact hBytes =>
          simp only [Transaction.recordWrite, hActive, Chronicle.note, if_true, mapError_ok, state,
            hBytes]
          exact .write hIntact hKnown

/-- A commit that is refused or cut off leaves the log alone, as does one of a
transaction that is not under way. -/
theorem commit_moves (x : Chronicle LogFile) (tx : Transaction) :
    Moves x (.call (.commit tx)) (state (step x (.call (.commit tx)))) := by
  have hCommit : Journal.commit x.log tx = x.log.commit tx := rfl
  rw [step, Chronicle.perform, hCommit, LogFile.commit]
  rcases Ledger.check_cases x.log.ledger tx with ⟨e, hCheck⟩ | ⟨hActive, hKnown⟩
  · rw [Ledger.commitEntry_of_error hCheck]
    exact .idle
  · cases hNext : successor x.log.ledger.lastTxid with
    | error f =>
        rw [Ledger.commitEntry_of_fault hActive hKnown hNext]
        exact .idle
    | ok next =>
        have hMade : x.log.ledger.commitEntry tx = .ok (.commit tx.id next) :=
          Ledger.commitEntry_of_active hActive hKnown hNext
        have hEntry : x.log.appended? (.call (.commit tx)) = some (.commit tx.id next) := by
          rw [appended?, hMade]
          rfl
        have hSpec := persist_spec x.log (.commit tx.id next)
        rw [hMade]
        simp only
        split
        next log cause hPersist =>
          rw [hPersist] at hSpec
          exact moves_of_error hSpec hEntry rfl hKnown
        next log hPersist =>
          rw [hPersist] at hSpec
          cases hSpec with
          | done hIntact hBytes =>
              have hLast : (x.log.ledger.record (.commit tx.id next)).lastTxid = next :=
                max_of_le (UInt64.le_of_lt (lt_of_successor hNext))
              simp only [Transaction.commit, hActive, Chronicle.note, if_true, mapError_ok,
                Except.map, state, hBytes, hLast]
              exact .commit hIntact hKnown

/-- A log that writes to the file at its path does one of the things that a step
can do. -/
theorem step_spec (hAttached : x.log.Attached) (action : FileStep) :
    Moves x action (state (step x action)) := by
  cases action with
  | disturb plan failTruncate => exact .idle
  | block blocked => exact .idle
  | call c =>
      cases c with
      | start id => exact .start rfl
      | write tx payload => exact write_moves x tx payload
      | commit tx => exact commit_moves x tx
      | reload =>
          have hReload : (step x (.call .reload)).log =
              { load x.log.sink.bytes with blocked := x.log.blocked, denied := x.log.denied } := by
            rw [← stored_of_here hAttached.here]
            rfl
          rw [state, hReload]
          exact .reload
      | rollback tx =>
          have hRollback : Journal.rollback x.log tx = x.log.rollback tx := rfl
          rw [step, Chronicle.perform, hRollback, LogFile.rollback]
          rcases Ledger.check_cases x.log.ledger tx with ⟨e, hCheck⟩ | ⟨hActive, hKnown⟩
          · rw [Ledger.rollback, hCheck]
            exact .idle
          · rw [Ledger.rollback, Ledger.check_of_active hActive hKnown]
            simp only [Transaction.rollback, hActive, Chronicle.note, if_true, mapError_ok]
            exact .rollback hKnown
      | purge through =>
          rw [step, Chronicle.perform]
          rcases x.log.purge_cases through with ⟨_, hPurge⟩ | ⟨_, _, hPurge⟩ | ⟨_, _, hPurge⟩ <;>
            rw [hPurge]
          · exact .idle
          · exact .idle
          · simp only [Chronicle.note, state, Sink.replace]
            exact .purge (Frame.lines_encodeAll _)

/-- Every step of a log that writes to the file at its path leaves it so. -/
theorem step_attached (h : x.log.Attached) (action : FileStep) : (step x action).log.Attached := by
  cases action with
  | disturb plan failTruncate => exact ⟨h.here, h.opens⟩
  | block blocked => exact ⟨h.here, h.opens⟩
  | call c =>
      cases c with
      | start id => exact ⟨h.here, h.opens⟩
      | write tx payload =>
          rw [step, Chronicle.perform, Chronicle.log_note]
          exact h.of_amid (x.log.write_amid _ _ _ tx payload)
      | commit tx =>
          rw [step, Chronicle.perform, Chronicle.log_note]
          exact h.of_amid (x.log.commit_amid _ _ _ tx)
      | rollback tx =>
          rw [step, Chronicle.perform, Chronicle.log_note]
          exact h.of_amid (x.log.rollback_amid _ _ _ tx)
      | reload => exact ⟨rfl, h.opens⟩
      | purge through =>
          rw [step, Chronicle.perform, Chronicle.log_note]
          rcases x.log.purge_cases through with ⟨_, hPurge⟩ | ⟨_, hDenied, _⟩ | ⟨_, _, hPurge⟩
          · rw [hPurge]
            exact h
          · cases h.opens.symm.trans hDenied
          · rw [hPurge]
            exact ⟨rfl, h.opens⟩

end Moves

end LogFile

end TierTree
