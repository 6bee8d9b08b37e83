import TierTree.Proofs.Log.Codec
import TierTree.Log.Journal
import TierTree.Proofs.Log.Settled

/-!
What a service relies on. A journal between calls stands for the transactions
that it commits; a payload that is logged is added or leaves these as they are.
-/

namespace TierTree

/-- Log a payload in a transaction of its own. A failed one is taken back. -/
def Journal.record {J : Type} [Journal J] (log : J) (id : TransactionId) (payload : String) :
    J × Attempt StorageError Txid :=
  let (log, tx) := Journal.start log id
  let giveUp (log : J) (tx : Transaction) (cause : StorageError) :=
    (if tx.isActive then (Journal.rollback log tx).1 else log, Except.error (.refused cause))
  match Journal.write log tx payload with
  | (log, .error (.refused cause)) => giveUp log tx cause
  | (log, .error (.fault f)) => (log, .error (.fault f))
  | (log, .ok tx) =>
      match Journal.commit log tx with
      | (log, .error (.refused cause)) => giveUp log tx cause
      | (log, .error (.fault f)) => (log, .error (.fault f))
      | (log, .ok (_, txid)) => (log, .ok txid)

section Outcome
variable {J : Type}
  (settled : J → List CommittedRecord → Txid → Txid → List TransactionId → Prop)
  (records : List CommittedRecord) (last purged : Txid) (used : List TransactionId)

/-- What logging a payload comes to: it is added with the next number, or the
journal commits what it did, or the numbers are used up. -/
def Recorded (id : TransactionId) (payload : String) : J × Attempt StorageError Txid → Prop
  | (log, .ok next) =>
      successor last = .ok next ∧
        settled log (records ++ [⟨next, [payload]⟩]) next purged (id :: used)
  | (log, .error (.refused _)) => settled log records last purged (id :: used)
  | (_, .error (.fault f)) => f = .overflow

/-- What a purge comes to that reaches every record: nothing is left but the
last number, which is the one of the purge at least, or the journal commits
what it did. -/
def Purged (through : Txid) : J × Attempt StorageError Unit → Prop
  | (log, .ok ()) => settled log [] (max last through) purged used
  | (log, .error (.refused _)) => settled log records last purged used
  | (_, .error (.fault _)) => False

end Outcome

/-- A journal that can be trusted. `Settled log records last purged used` says
that a journal between calls commits `records`, that the last number is `last`,
that it was purged no further than to `purged`, and that all its transactions
are among `used`. -/
class LawfulJournal (J : Type) [Journal J] where
  Settled : J → List CommittedRecord → Txid → Txid → List TransactionId → Prop
  lastTxid_eq {log : J} {records last purged used} : Settled log records last purged used →
    Journal.lastTxid log = last
  committedSince_eq {log : J} {records last purged used} : Settled log records last purged used →
    ∀ after, Journal.committedSince log after = records.filter (after < ·.txid)
  le_last {log : J} {records last purged used} : Settled log records last purged used →
    ∀ r ∈ records, r.txid ≤ last
  record_spec {log : J} {records last purged used} : Settled log records last purged used →
    ∀ {id : TransactionId}, id ∉ used → ∀ payload : String,
      Recorded Settled records last purged used id payload (Journal.record log id payload)
  mono {log : J} {records last purged further used later} :
    Settled log records last purged used → purged ≤ further → used ⊆ later →
      Settled log records last further later
  purge_spec {log : J} {records last purged used} : Settled log records last purged used →
    ∀ {through : Txid}, (∀ r ∈ records, r.txid ≤ through) → through ≤ purged →
      Purged Settled records last purged used through (Journal.purge log through)

/-- A place for checkpoints that can be trusted: what was saved is loaded, and
a save that fails leaves what was there. -/
class LawfulVault (C : Type) [Vault C] : Prop where
  save_spec (vault : C) (txid : Txid) (payload : String) :
    match Vault.save vault (.stamp txid payload) with
    | (vault', .ok ()) => Vault.load vault' = .ok (some (.stamp txid payload))
    | (vault', .error _) => Vault.load vault' = Vault.load vault

namespace Ledger

variable {l : Ledger} {records : List CommittedRecord} {last next purged : Txid}
  {used : List TransactionId} {id : TransactionId} {payload : String}

section Steps
variable {tx : Transaction} (hActive : tx.isActive = true) (hKnown : tx.id ∈ l.active)
include hActive hKnown

theorem check_of_active : l.check tx = .ok () := by
  simp [check, hActive, hKnown]

theorem writeEntry_of_active : l.writeEntry tx payload = .ok (.write tx.id payload) := by
  rw [writeEntry, check_of_active hActive hKnown]
  rfl

theorem commitEntry_of_active (hNext : successor l.lastTxid = .ok next) :
    l.commitEntry tx = .ok (.commit tx.id next) := by
  rw [commitEntry, check_of_active hActive hKnown, hNext]

theorem commitEntry_of_fault {f : Fault} (hFault : successor l.lastTxid = .error f) :
    l.commitEntry tx = .error (.fault f) := by
  rw [commitEntry, check_of_active hActive hKnown, hFault]

theorem rollback_of_active : (l.rollback tx).1 = l.discard tx.id := by
  rw [rollback, check_of_active hActive hKnown]

end Steps

/-- A ledger with one more transaction under way. -/
def opened (l : Ledger) (id : TransactionId) : Ledger := { l with active := id :: l.active }

/-- A transaction that is not under way leaves the others under way. -/
theorem active_filter_of_fresh (h : id ∉ l.active) : l.active.filter (· ≠ id) = l.active :=
  List.filter_eq_self.mpr fun _ hTx => decide_eq_true fun hSame => h (hSame ▸ hTx)

theorem start_of_fresh (h : id ∉ l.active) : l.start id = (l.opened id, .start id) := by
  rw [start, active_filter_of_fresh h]
  rfl

theorem record_commit_opened (l : Ledger) (id : TransactionId) (next : Txid) :
    ((l.opened id).record (.write id payload)).record (.commit id next) =
      (l.record (.write id payload)).record (.commit id next) := by
  simp [opened, record]

theorem entries_discard (h : l.Settled records last purged used) (hFresh : id ∉ used) :
    (l.discard id).entries = l.entries := by
  unfold discard
  refine List.filter_eq_self.mpr fun e hMem => ?_
  cases e with
  | write tx text =>
      exact decide_eq_true fun hSame => hFresh (hSame ▸ h.named _ hMem tx rfl)
  | commit tx txid => rfl
  | checkpoint txid => rfl

/-- Taking a transaction back leaves the ledger it was started in. -/
theorem discard_opened (h : l.Settled records last purged used) (hFresh : id ∉ used) :
    (l.opened id).discard id = l := by
  have hActive : (id :: l.active).filter (· ≠ id) = l.active := by
    rw [List.filter_cons_of_neg (by simp), active_filter_of_fresh (mt (h.active id) hFresh)]
  calc (l.opened id).discard id
      = ⟨(l.discard id).entries, l.lastTxid, (id :: l.active).filter (· ≠ id)⟩ := rfl
    _ = l := by rw [entries_discard h hFresh, hActive]

theorem discard_record_write (l : Ledger) (id : TransactionId) (payload : String) :
    (l.record (.write id payload)).discard id = l.discard id := by
  simp [discard, record, List.filter_append]

/-- The outcome of logging a payload in a transaction that is not under way. -/
theorem record_of_fresh (h : id ∉ l.active) :
    Journal.record l id payload =
      match successor l.lastTxid with
      | .error f => ((l.opened id).record (.write id payload), .error (.fault f))
      | .ok next => ((l.record (.write id payload)).record (.commit id next), .ok next) := by
  have hStart : Journal.start l id = (l.opened id, .start id) := start_of_fresh h
  have hWrite : Journal.write (l.opened id) (.start id) payload =
      ((l.opened id).record (.write id payload), .ok ⟨id, .active, 1⟩) := by
    show Ledger.write _ _ _ = _
    rw [write, writeEntry_of_active rfl List.mem_cons_self]
    rfl
  cases hNext : successor l.lastTxid with
  | error f =>
      have hFault : successor ((l.opened id).record (.write id payload)).lastTxid = .error f :=
        hNext
      have hCommit : Journal.commit ((l.opened id).record (.write id payload)) ⟨id, .active, 1⟩ =
          ((l.opened id).record (.write id payload), .error (.fault f)) := by
        show Ledger.commit _ _ = _
        rw [commit, commitEntry_of_fault rfl List.mem_cons_self hFault]
        rfl
      simp only [Journal.record, hStart, hWrite, hCommit]
  | ok next =>
      have hNumber : successor ((l.opened id).record (.write id payload)).lastTxid = .ok next :=
        hNext
      have hLast : max l.lastTxid next = next :=
        max_of_le (UInt64.le_of_lt (lt_of_successor hNext))
      have hCommit : Journal.commit ((l.opened id).record (.write id payload)) ⟨id, .active, 1⟩ =
          ((l.record (.write id payload)).record (.commit id next),
            .ok (⟨id, .committed, 1⟩, next)) := by
        show Ledger.commit _ _ = _
        rw [commit, commitEntry_of_active rfl List.mem_cons_self hNumber,
          ← record_commit_opened l id next]
        show (_, Except.ok (_, max l.lastTxid next)) = _
        rw [hLast]
      simp only [Journal.record, hStart, hWrite, hCommit]

instance : LawfulJournal Ledger where
  Settled := Settled
  lastTxid_eq h := h.latest
  committedSince_eq h after := by
    show committedSince _ after = _
    rw [committedSince_eq_filter, h.recorded]
  le_last h _ hMem := h.le_last hMem
  record_spec h id hFresh payload := by
    rw [record_of_fresh (mt (h.active id) hFresh)]
    cases hNext : successor _ with
    | error f => exact fault_of_successor hNext
    | ok next =>
        rw [h.latest] at hNext
        exact ⟨hNext, h.committed hFresh (lt_of_successor hNext)⟩
  mono h hPurged hUsed := h.mono hPurged hUsed
  purge_spec h _ hRecords hPurged := h.purge hRecords hPurged

end Ledger

instance : LawfulVault CheckpointSlot where
  save_spec _ txid payload := by
    show (Checkpoint.stamp txid payload).verified.map some = _
    rw [Checkpoint.verified_stamp]
    rfl

namespace CheckpointFile

variable {file file' : CheckpointFile} {c : Checkpoint}

theorem save_of_blocked (h : file.blocked = true) (c : Checkpoint) :
    Vault.save file c = (file, .error (.io .blocked)) :=
  if_pos h

theorem save_of_free (h : file.blocked = false) (c : Checkpoint) :
    Vault.save file c = ({ file with content := some (Utf8.encode c.render) }, .ok ()) :=
  if_neg (Bool.eq_false_iff.mp h)

/-- A file that refuses a checkpoint is as it was. -/
theorem save_of_error {cause : StorageError} (h : Vault.save file c = (file', .error cause)) :
    file' = file ∧ cause = .io .blocked := by
  by_cases hBlocked : file.blocked = true
  · rw [save_of_blocked hBlocked] at h
    cases h
    exact ⟨rfl, rfl⟩
  · rw [save_of_free (Bool.eq_false_iff.mpr hBlocked)] at h
    cases (Prod.mk.inj h).2

theorem save_of_ok (h : Vault.save file c = (file', .ok ())) :
    file'.content = some (Utf8.encode c.render) := by
  by_cases hBlocked : file.blocked = true
  · rw [save_of_blocked hBlocked] at h
    cases (Prod.mk.inj h).2
  · rw [save_of_free (Bool.eq_false_iff.mpr hBlocked)] at h
    rw [← (Prod.mk.inj h).1]

end CheckpointFile

instance : LawfulVault CheckpointFile where
  save_spec file txid payload := by
    by_cases hBlocked : file.blocked = true
    · rw [CheckpointFile.save_of_blocked hBlocked]
    · rw [CheckpointFile.save_of_free (Bool.eq_false_iff.mpr hBlocked)]
      show CheckpointFile.load _ = _
      simp only [CheckpointFile.load, Checkpoint.parse?_render, Checkpoint.verified_stamp]
      rfl

end TierTree
