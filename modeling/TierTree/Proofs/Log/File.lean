import TierTree.Log.File
import TierTree.Proofs.Log.Journal
import TierTree.Proofs.Log.Lines

/-!
Logs in files whose failed appends can be cut off. What is on disk commits the
same transactions as the ledger in memory at every time between calls, so a log
that is opened from these bytes takes the place of the one that wrote them.
-/

namespace TierTree.LogFile

open TierTree.Frame (Lines encodeAll)

/-- The log writes to the file at its path, and a new one that takes the place of
this file can be opened. -/
structure Attached (log : LogFile) : Prop where
  here : log.replaced = none
  opens : log.denied = false

theorem stored_of_here {log : LogFile} (h : log.replaced = none) : log.stored = log.sink.bytes := by
  rw [stored, h, Option.getD_none]

/-- The file holds these entries, and what is appended to it can be cut off. -/
structure Holds (log : LogFile) (disk : List LogEntry) : Prop where
  bytes : Lines log.sink.bytes disk
  cuts : log.sink.failTruncate = false
  attached : log.Attached

/-- What a file holds does not depend on the ledger in memory. -/
theorem Holds.of_same {log log' : LogFile} {disk : List LogEntry} (h : log.Holds disk)
    (hSink : log'.sink = log.sink) (hHere : log'.replaced = log.replaced)
    (hOpens : log'.denied = log.denied) : log'.Holds disk :=
  ⟨hSink ▸ h.bytes, hSink ▸ h.cuts, hHere.trans h.attached.here, hOpens.trans h.attached.opens⟩

section Sink
variable {s : Sink} {bytes : List UInt8}

theorem sync_bytes (s : Sink) :
    s.sync.1.bytes = s.bytes ∧ s.sync.1.failTruncate = s.failTruncate := by
  unfold Sink.sync
  split
  · split <;> exact ⟨rfl, rfl⟩
  · exact ⟨rfl, rfl⟩

/-- A failed append leaves some of its bytes behind. -/
theorem append_bytes (s : Sink) (bytes : List UInt8) :
    (∃ left, (s.append bytes).1.bytes = s.bytes ++ left ∧
      ((s.append bytes).2 = .ok () → left = bytes)) ∧
    (s.append bytes).1.failTruncate = s.failTruncate := by
  unfold Sink.append
  simp only
  split
  · split
    · exact ⟨⟨_, rfl, fun hOk => by cases hOk⟩, rfl⟩
    · exact ⟨⟨bytes, rfl, fun _ => rfl⟩, rfl⟩
  · exact ⟨⟨bytes, rfl, fun _ => rfl⟩, rfl⟩

theorem appendDurably_bytes (s : Sink) (bytes : List UInt8) :
    (∃ left, (appendDurably s bytes).1.bytes = s.bytes ++ left ∧
      ((appendDurably s bytes).2 = .ok () → left = bytes)) ∧
    (appendDurably s bytes).1.failTruncate = s.failTruncate := by
  obtain ⟨⟨left, hLeft, hAll⟩, hCuts⟩ := append_bytes s bytes
  unfold appendDurably
  split
  next s' e hAppend =>
    rw [hAppend] at hLeft hCuts
    exact ⟨⟨left, hLeft, fun hOk => by cases hOk⟩, hCuts⟩
  next s' hAppend =>
    rw [hAppend] at hLeft hCuts hAll
    obtain ⟨hSame, hKeeps⟩ := sync_bytes s'
    exact ⟨⟨left, hSame.trans hLeft, fun _ => hAll rfl⟩, hKeeps.trans hCuts⟩

/-- Cutting back to a length drops what was appended behind it. -/
theorem cutBack_bytes {left : List UInt8} (hBytes : s.bytes = bytes ++ left)
    (hCuts : s.failTruncate = false) :
    (cutBack s bytes.length).1.bytes = bytes ∧
      (cutBack s bytes.length).1.failTruncate = false := by
  have hResize : Sink.resize s.bytes bytes.length = bytes := by
    rw [Sink.resize, hBytes, List.take_left, List.length_append]
    simp
  have hTruncate : s.truncate bytes.length = ({ s with bytes := bytes }, .ok ()) := by
    rw [Sink.truncate, hCuts, hResize]
    rfl
  obtain ⟨hSame, hKeeps⟩ := sync_bytes { s with bytes := bytes }
  rw [cutBack, hTruncate]
  exact ⟨hSame, hKeeps.trans hCuts⟩

end Sink

/-- An entry that is brought to the disk is the last one there; where that
fails, the disk is as before. -/
theorem persist_holds {log : LogFile} {disk : List LogEntry} (h : log.Holds disk) (e : LogEntry) :
    (log.persist e).1.ledger = log.ledger ∧
    match log.persist e with
    | (log', .ok ()) => log'.Holds (disk ++ [e])
    | (log', .error _) => log'.Holds disk := by
  obtain ⟨⟨left, hLeft, hAll⟩, hKeeps⟩ := appendDurably_bytes log.sink (Frame.encode e)
  unfold persist
  split
  · exact ⟨rfl, h⟩
  · split
    next s hDone =>
      rw [hDone] at hLeft hKeeps hAll
      refine ⟨rfl, ?_, hKeeps.trans h.cuts, ⟨h.attached.here, h.attached.opens⟩⟩
      rw [hLeft, hAll rfl]
      exact h.bytes.append (Frame.lines_encode e)
    next s cause hFailed =>
      rw [hFailed] at hLeft hKeeps
      obtain ⟨hCut, hCuts⟩ := cutBack_bytes hLeft (hKeeps.trans h.cuts)
      split
      next s' hCutDone =>
        rw [show log.sink.bytes.length = log.sink.size from rfl, hCutDone] at hCut hCuts
        exact ⟨rfl, hCut ▸ h.bytes, hCuts, ⟨h.attached.here, h.attached.opens⟩⟩
      next s' cause' hCutFailed =>
        rw [show log.sink.bytes.length = log.sink.size from rfl, hCutFailed] at hCut hCuts
        exact ⟨rfl, hCut ▸ h.bytes, hCuts, ⟨h.attached.here, h.attached.opens⟩⟩

/-- A log between calls: ledger and file commit `records`. Writes without a
commit may stand in the file alone. -/
structure Settled (log : LogFile) (records : List CommittedRecord) (last purged : Txid)
    (used : List TransactionId) : Prop where
  ledger : log.ledger.Settled records last purged used
  file : ∃ disk, log.Holds disk ∧ (Ledger.ofEntries disk).Settled records last purged used

theorem Settled.mono {log : LogFile} {records : List CommittedRecord} {last purged further : Txid}
    {used later : List TransactionId} (h : log.Settled records last purged used)
    (hPurged : purged ≤ further) (hUsed : used ⊆ later) :
    log.Settled records last further later := by
  obtain ⟨hLedger, disk, hHolds, hDisk⟩ := h
  exact ⟨hLedger.mono hPurged hUsed, disk, hHolds, hDisk.mono hPurged hUsed⟩

section Amid

/-- The log amid other files: what is in the way of a new one, whether it can be
opened, and what has taken the place of the file that the log writes to. -/
def amid (log : LogFile) (blocked denied : Bool) (replaced : Option (List UInt8)) : LogFile :=
  { log with blocked := blocked, denied := denied, replaced := replaced }

variable (log : LogFile) (blocked denied : Bool) (replaced : Option (List UInt8))

theorem persist_amid (e : LogEntry) :
    (log.amid blocked denied replaced).persist e =
      ((log.persist e).1.amid blocked denied replaced, (log.persist e).2) := by
  obtain ⟨sink, ledger, failed, _, _, _⟩ := log
  cases failed with
  | true => rfl
  | false =>
      simp only [persist, amid, Bool.false_eq_true, if_false]
      rcases appendDurably sink (Frame.encode e) with ⟨s, cause | _⟩
      · simp only
        rcases cutBack s sink.size with ⟨_, _ | _⟩ <;> rfl
      · rfl

theorem write_amid (tx : Transaction) (payload : String) :
    Journal.write (log.amid blocked denied replaced) tx payload =
      ((Journal.write log tx payload).1.amid blocked denied replaced,
        (Journal.write log tx payload).2) := by
  change (log.amid blocked denied replaced).write tx payload =
    ((log.write tx payload).1.amid blocked denied replaced, (log.write tx payload).2)
  have hLedger : (log.amid blocked denied replaced).ledger = log.ledger := rfl
  simp only [LogFile.write, hLedger, persist_amid]
  cases log.ledger.writeEntry tx payload with
  | error e => rfl
  | ok entry =>
      simp only
      rcases log.persist entry with ⟨_, _ | _⟩ <;> rfl

theorem commit_amid (tx : Transaction) :
    Journal.commit (log.amid blocked denied replaced) tx =
      ((Journal.commit log tx).1.amid blocked denied replaced, (Journal.commit log tx).2) := by
  change (log.amid blocked denied replaced).commit tx =
    ((log.commit tx).1.amid blocked denied replaced, (log.commit tx).2)
  have hLedger : (log.amid blocked denied replaced).ledger = log.ledger := rfl
  simp only [LogFile.commit, hLedger, persist_amid]
  cases log.ledger.commitEntry tx with
  | error e => rfl
  | ok entry =>
      simp only
      rcases log.persist entry with ⟨_, _ | _⟩ <;> rfl

theorem start_amid (id : TransactionId) :
    Journal.start (log.amid blocked denied replaced) id =
      ((Journal.start log id).1.amid blocked denied replaced, (Journal.start log id).2) := rfl

theorem rollback_amid (tx : Transaction) :
    Journal.rollback (log.amid blocked denied replaced) tx =
      ((Journal.rollback log tx).1.amid blocked denied replaced, (Journal.rollback log tx).2) := rfl

/-- What is recorded in a log does not depend on the files around it. -/
theorem record_amid (id : TransactionId) (payload : String) :
    Journal.record (log.amid blocked denied replaced) id payload =
      ((Journal.record log id payload).1.amid blocked denied replaced,
        (Journal.record log id payload).2) := by
  rcases hStart : Journal.start log id with ⟨started, tx⟩
  rcases hWrite : Journal.write started tx payload with ⟨written, (cause | f) | tx'⟩
  · simp only [Journal.record, start_amid, hStart, write_amid, hWrite, rollback_amid]
    cases tx.isActive <;> rfl
  · simp only [Journal.record, start_amid, hStart, write_amid, hWrite]
  · rcases hCommit : Journal.commit written tx' with ⟨committed, (cause | f) | ⟨done, next⟩⟩ <;>
      simp only [Journal.record, start_amid, hStart, write_amid, hWrite, commit_amid, hCommit,
        rollback_amid]
    cases tx'.isActive <;> rfl

/-- The log with nothing in the way of a new file, and nothing in the place of its own. -/
def freed (log : LogFile) : LogFile := log.amid false false none

/-- A call that does not depend on the files around leaves them as they are. -/
theorem Attached.of_amid {log : LogFile} {α : Type} (h : log.Attached) {outcome : LogFile × α}
    (hSame : outcome = (outcome.1.amid log.blocked log.denied log.replaced, outcome.2)) :
    outcome.1.Attached := by
  rw [hSame]
  exact ⟨h.here, h.opens⟩

end Amid

section Purge
variable {log : LogFile}

theorem purge_of_blocked (h : log.blocked = true) (through : Txid) :
    Journal.purge log through = (log, .error (.refused (.io .blocked))) :=
  if_pos h

/-- A log that cannot go over to the new file goes on writing to the old one. -/
theorem purge_of_denied (hFree : log.blocked = false) (hDenied : log.denied = true)
    (through : Txid) :
    Journal.purge log through =
      ({ log with replaced := some (encodeAll (log.ledger.purgedEntries through)) },
        .error (.refused (.io .reopen))) :=
  (if_neg (Bool.eq_false_iff.mp hFree)).trans (if_pos hDenied)

theorem purge_of_free (hFree : log.blocked = false) (hOpens : log.denied = false)
    (through : Txid) :
    Journal.purge log through =
      ({ log with
          sink := log.sink.replace (encodeAll (log.ledger.purgedEntries through))
          ledger := log.ledger.purge through
          failed := false
          replaced := none },
        .ok ()) :=
  (if_neg (Bool.eq_false_iff.mp hFree)).trans (if_neg (Bool.eq_false_iff.mp hOpens))

/-- Nothing gets in the place of the old file, or the new one gets there and cannot be
opened, or the log goes over to it. -/
theorem purge_cases (log : LogFile) (through : Txid) :
    (log.blocked = true ∧
      Journal.purge log through = (log, .error (.refused (.io .blocked)))) ∨
    (log.blocked = false ∧ log.denied = true ∧ Journal.purge log through =
      ({ log with replaced := some (encodeAll (log.ledger.purgedEntries through)) },
        .error (.refused (.io .reopen)))) ∨
    log.blocked = false ∧ log.denied = false ∧ Journal.purge log through =
      ({ log with
          sink := log.sink.replace (encodeAll (log.ledger.purgedEntries through))
          ledger := log.ledger.purge through
          failed := false
          replaced := none },
        .ok ()) := by
  rcases Bool.eq_false_or_eq_true log.blocked with hBlocked | hFree
  · exact .inl ⟨hBlocked, purge_of_blocked hBlocked through⟩
  · rcases Bool.eq_false_or_eq_true log.denied with hDenied | hOpens
    · exact .inr (.inl ⟨hFree, hDenied, purge_of_denied hFree hDenied through⟩)
    · exact .inr (.inr ⟨hFree, hOpens, purge_of_free hFree hOpens through⟩)

/-- A log that refuses to be purged is as it was, if new files can be opened. -/
theorem purge_of_error (hOpens : log.denied = false) {log' : LogFile} {through : Txid}
    {failure : Failure StorageError}
    (h : Journal.purge log through = (log', .error failure)) : log' = log := by
  rcases log.purge_cases through with ⟨_, hPurge⟩ | ⟨_, hDenied, _⟩ | ⟨_, _, hPurge⟩
  · rw [hPurge] at h
    exact (Prod.mk.inj h).1.symm
  · cases hOpens.symm.trans hDenied
  · rw [hPurge] at h
    cases (Prod.mk.inj h).2

/-- A purge that is refused leaves the log writing to the same file as before; any other
one does what it would do with nothing in the way. -/
theorem purge_freed (log : LogFile) (through : Txid) :
    ((Journal.purge log through).1.freed = log.freed ∧
      ∃ cause, (Journal.purge log through).2 = .error (.refused (.io cause))) ∨
    (Journal.purge log through).1.replaced = none ∧
      Journal.purge log.freed through =
        ((Journal.purge log through).1.freed, (Journal.purge log through).2) := by
  rcases log.purge_cases through with ⟨_, hPurge⟩ | ⟨_, _, hPurge⟩ | ⟨_, _, hPurge⟩ <;> rw [hPurge]
  · exact .inl ⟨rfl, _, rfl⟩
  · exact .inl ⟨rfl, _, rfl⟩
  · exact .inr ⟨rfl, @purge_of_free log.freed rfl rfl through⟩

theorem purge_of_ok {log' : LogFile} {through : Txid}
    (h : Journal.purge log through = (log', .ok ())) :
    log'.sink.bytes = encodeAll (log.ledger.purgedEntries through) := by
  rcases log.purge_cases through with ⟨_, hPurge⟩ | ⟨_, _, hPurge⟩ | ⟨_, _, hPurge⟩ <;>
    rw [hPurge] at h
  · cases (Prod.mk.inj h).2
  · cases (Prod.mk.inj h).2
  · rw [← (Prod.mk.inj h).1]
    simp only [Sink.replace]

end Purge

section Record
variable {log : LogFile} {l : Ledger} {disk : List LogEntry} {records : List CommittedRecord}
  {last purged : Txid} {used : List TransactionId} {id : TransactionId} {payload : String}

/-- The write of a transaction is on disk and in memory, or in neither. -/
theorem write_outcome (hLedger : log.ledger = l.opened id) (hHolds : log.Holds disk) :
    (∃ log', Journal.write log (.start id) payload = (log', .ok ⟨id, .active, 1⟩) ∧
      log'.ledger = (l.opened id).record (.write id payload) ∧
      log'.Holds (disk ++ [.write id payload])) ∨
    ∃ log' cause, Journal.write log (.start id) payload = (log', .error (.refused cause)) ∧
      log'.ledger = l.opened id ∧ log'.Holds disk := by
  have hEntry : log.ledger.writeEntry (.start id) payload = .ok (.write id payload) :=
    Ledger.writeEntry_of_active rfl (hLedger ▸ List.mem_cons_self)
  have hWrite : Journal.write log (.start id) payload = log.write (.start id) payload := rfl
  obtain ⟨hSame, hOutcome⟩ := persist_holds hHolds (.write id payload)
  rw [hWrite, LogFile.write, hEntry]
  simp only
  split
  next log' cause hPersist =>
    rw [hPersist] at hSame hOutcome
    exact .inr ⟨log', cause, rfl, hSame.trans hLedger, hOutcome⟩
  next log' hPersist =>
    rw [hPersist] at hSame hOutcome
    refine .inl ⟨_, rfl, ?_, hOutcome.of_same rfl rfl rfl⟩
    rw [hSame.trans hLedger]

/-- The commit of a transaction is on disk and in memory, or in neither. -/
theorem commit_outcome
    (hLedger : log.ledger = (l.opened id).record (.write id payload)) (hHolds : log.Holds disk) :
    (∃ log' tx next, Journal.commit log ⟨id, .active, 1⟩ = (log', .ok (tx, next)) ∧
      successor l.lastTxid = .ok next ∧
      log'.ledger = (l.record (.write id payload)).record (.commit id next) ∧
      log'.Holds (disk ++ [.commit id next])) ∨
    (∃ log' cause, Journal.commit log ⟨id, .active, 1⟩ = (log', .error (.refused cause)) ∧
      log'.ledger = (l.opened id).record (.write id payload) ∧ log'.Holds disk) ∨
    ∃ log', Journal.commit log ⟨id, .active, 1⟩ = (log', .error (.fault .overflow)) := by
  have hCommit : Journal.commit log ⟨id, .active, 1⟩ = log.commit ⟨id, .active, 1⟩ := rfl
  have hKnown : id ∈ log.ledger.active := hLedger ▸ List.mem_cons_self
  have hLast : log.ledger.lastTxid = l.lastTxid := by rw [hLedger]; rfl
  rw [hCommit, LogFile.commit]
  cases hNext : successor l.lastTxid with
  | error f =>
      rw [Ledger.commitEntry_of_fault rfl hKnown (hLast ▸ hNext)]
      exact .inr (.inr ⟨log, by rw [← fault_of_successor hNext]; rfl⟩)
  | ok next =>
      obtain ⟨hSame, hOutcome⟩ := persist_holds hHolds (.commit id next)
      rw [Ledger.commitEntry_of_active rfl hKnown (hLast ▸ hNext)]
      simp only
      split
      next log' cause hPersist =>
        rw [hPersist] at hSame hOutcome
        exact .inr (.inl ⟨log', cause, rfl, hSame.trans hLedger, hOutcome⟩)
      next log' hPersist =>
        rw [hPersist] at hSame hOutcome
        have hRecord : log'.ledger.record (.commit id next) =
            (l.record (.write id payload)).record (.commit id next) := by
          rw [hSame.trans hLedger, Ledger.record_commit_opened]
        have hNumber : (log'.ledger.record (.commit id next)).lastTxid = next := by
          rw [hRecord]
          exact max_of_le (UInt64.le_of_lt (lt_of_successor hNext))
        refine .inl ⟨{ log' with ledger := log'.ledger.record (.commit id next) },
          ⟨id, .committed, 1⟩, next, ?_, rfl, hRecord, hOutcome.of_same rfl rfl rfl⟩
        show (_, Except.ok (_, (log'.ledger.record (.commit id next)).lastTxid)) = _
        rw [hNumber]

/-- A transaction that is given up leaves a log between calls. -/
theorem rollback_settled (hKnown : id ∈ log.ledger.active) (hHolds : log.Holds disk)
    (hLedger : (log.ledger.discard id).Settled records last purged used)
    (hDisk : (Ledger.ofEntries disk).Settled records last purged (id :: used)) {tx : Transaction}
    (hId : tx.id = id) (hActive : tx.isActive = true) :
    (Journal.rollback log tx).1.Settled records last purged (id :: used) := by
  subst hId
  constructor
  · show (log.ledger.rollback tx).1.Settled _ _ _ _
    rw [Ledger.rollback_of_active hActive hKnown]
    exact hLedger.mono (UInt64.le_refl _) (List.subset_cons_self _ _)
  · exact ⟨disk, hHolds.of_same rfl rfl rfl, hDisk⟩

/-- A payload that is logged is committed in memory and on disk, or in neither. -/
theorem record_settled (h : log.Settled records last purged used) (hFresh : id ∉ used)
    (payload : String) :
    Recorded Settled records last purged used id payload (Journal.record log id payload) := by
  obtain ⟨hLedger, disk, hHolds, hDisk⟩ := h
  have hStart :
      Journal.start log id = ({ log with ledger := log.ledger.opened id }, .start id) := by
    show LogFile.start log id = _
    rw [LogFile.start, Ledger.start_of_fresh (mt (hLedger.active id) hFresh)]
  have hTaken := Ledger.discard_opened hLedger hFresh
  have hOrphan : (Ledger.ofEntries (disk ++ [.write id payload])).Settled records last purged
      (id :: used) := by
    rw [Ledger.ofEntries_append]
    exact hDisk.orphan id payload
  rcases @write_outcome { log with ledger := log.ledger.opened id } log.ledger disk id payload rfl
      (hHolds.of_same rfl rfl rfl) with
    ⟨written, hWrite, hWritten, hOnDisk⟩ | ⟨written, cause, hWrite, hWritten, hOnDisk⟩
  · rcases commit_outcome hWritten hOnDisk with
      ⟨done, tx, next, hCommit, hNext, hDone, hDoneOnDisk⟩ |
      ⟨failed, cause, hCommit, hFailed, hFailedOnDisk⟩ | ⟨failed, hCommit⟩
    · simp only [Journal.record, hStart, hWrite, hCommit]
      rw [hLedger.latest] at hNext
      refine ⟨hNext, ?_, _, hDoneOnDisk, ?_⟩
      · rw [hDone]
        exact hLedger.committed hFresh (lt_of_successor hNext)
      · rw [Ledger.ofEntries_append, Ledger.ofEntries_append]
        exact hDisk.committed hFresh (lt_of_successor hNext)
    · simp only [Journal.record, hStart, hWrite, hCommit]
      refine rollback_settled (hFailed ▸ List.mem_cons_self) hFailedOnDisk ?_ hOrphan rfl rfl
      rw [hFailed, Ledger.discard_record_write, hTaken]
      exact hLedger
    · simp only [Journal.record, hStart, hWrite, hCommit, Recorded]
  · simp only [Journal.record, hStart, hWrite]
    refine rollback_settled (hWritten ▸ List.mem_cons_self) hOnDisk ?_
      (hDisk.mono (UInt64.le_refl _) (List.subset_cons_self _ _)) rfl rfl
    rw [hWritten, hTaken]
    exact hLedger

/-- A purge that reaches every record leaves none, on disk and in memory. -/
theorem purge_settled (h : log.Settled records last purged used) {through : Txid}
    (hRecords : ∀ r ∈ records, r.txid ≤ through) (hPurged : through ≤ purged) :
    Purged Settled records last purged used through (Journal.purge log through) := by
  obtain ⟨_, hHolds, _⟩ := h.file
  rcases log.purge_cases through with ⟨_, hPurge⟩ | ⟨_, hDenied, _⟩ | ⟨_, hOpens, hPurge⟩
  · rw [hPurge]
    exact h
  · cases hHolds.attached.opens.symm.trans hDenied
  · have hLedger := h.ledger.purge hRecords hPurged
    have hDisk := hLedger.reload
    rw [Ledger.entries_purge] at hDisk
    rw [hPurge]
    refine ⟨hLedger, log.ledger.purgedEntries through, ?_, hDisk⟩
    constructor
    case bytes =>
      simp only [Sink.replace]
      exact Frame.lines_encodeAll _
    case cuts => simpa only [Sink.replace] using hHolds.cuts
    case attached => exact ⟨rfl, hOpens⟩

end Record

instance : LawfulJournal LogFile where
  Settled := Settled
  lastTxid_eq h := h.ledger.latest
  committedSince_eq h after := by
    show Ledger.committedSince _ after = _
    rw [Ledger.committedSince_eq_filter, h.ledger.recorded]
  le_last h _ hMem := h.ledger.le_last hMem
  record_spec h _ hFresh payload := record_settled h hFresh payload
  mono h hPurged hUsed := h.mono hPurged hUsed
  purge_spec h _ hRecords hPurged := purge_settled h hRecords hPurged

section Reopen
variable {log : LogFile} {records : List CommittedRecord} {last purged : Txid}
  {used : List TransactionId}

/-- What is in the way of a new file does not matter to what a log holds. -/
theorem Settled.block (h : log.Settled records last purged used) (blocked : Bool) :
    LogFile.Settled { log with blocked := blocked } records last purged used := by
  obtain ⟨hLedger, disk, hHolds, hDisk⟩ := h
  exact ⟨hLedger, disk, hHolds.of_same rfl rfl rfl, hDisk⟩

/-- A log that is opened from whole lines has their entries. -/
theorem load_of_lines {bytes : List UInt8} {disk : List LogEntry} (h : Lines bytes disk) :
    load bytes = ⟨.reliable bytes, .ofEntries disk, false, false, false, none⟩ := by
  rw [load, h.readAll_eq]
  simp

theorem settled_of_lines {bytes : List UInt8} {disk : List LogEntry} (h : Lines bytes disk)
    (hDisk : (Ledger.ofEntries disk).Settled records last purged used) :
    (load bytes).Settled records last purged used := by
  rw [load_of_lines h]
  exact ⟨hDisk, disk, ⟨h, rfl, rfl, rfl⟩, hDisk⟩

/-- A log that is opened from what a purge that reaches every record leaves has none. -/
theorem load_purged_settled (h : log.ledger.Settled records last purged used) {through : Txid}
    (hRecords : ∀ r ∈ records, r.txid ≤ through) (hPurged : through ≤ purged) :
    (load (encodeAll (log.ledger.purgedEntries through))).Settled [] (max last through) purged
      used := by
  have hDisk := (h.purge hRecords hPurged).reload
  rw [Ledger.entries_purge] at hDisk
  exact settled_of_lines (Frame.lines_encodeAll _) hDisk

theorem Settled.attached (h : log.Settled records last purged used) : log.Attached := by
  obtain ⟨_, _, hHolds, _⟩ := h
  exact hHolds.attached

theorem Settled.freed (h : log.Settled records last purged used) :
    log.freed.Settled records last purged used := by
  obtain ⟨hLedger, disk, hHolds, hDisk⟩ := h
  exact ⟨hLedger, disk, ⟨hHolds.bytes, hHolds.cuts, rfl, rfl⟩, hDisk⟩

/-- A log that is opened from the bytes of another one takes its place. -/
theorem load_settled (h : log.Settled records last purged used) (blocked : Bool) :
    LogFile.Settled { load log.stored with blocked := blocked } records last purged used := by
  obtain ⟨_, disk, hHolds, hDisk⟩ := h
  rw [stored_of_here hHolds.attached.here]
  exact (settled_of_lines hHolds.bytes hDisk).block blocked

end Reopen

end TierTree.LogFile
