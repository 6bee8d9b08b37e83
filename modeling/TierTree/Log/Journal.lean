import TierTree.Failure
import TierTree.Log.Error
import TierTree.Log.Ledger

/-!
What a service needs of a log, and the log in memory as the plainest example.
A call that is refused may still have changed the log, so the log always comes
back.
-/

namespace TierTree

/-- A durable record of transactions. -/
class Journal (J : Type) where
  start : J → TransactionId → J × Transaction
  write : J → Transaction → String → J × Attempt StorageError Transaction
  commit : J → Transaction → J × Attempt StorageError (Transaction × Txid)
  rollback : J → Transaction → J × Attempt StorageError Transaction
  committedSince : J → Txid → List CommittedRecord
  lastTxid : J → Txid
  purge : J → Txid → J × Attempt StorageError Unit

/-- A refusal of a transaction as a refusal of the storage. -/
def refuseTransaction (e : TransactionError) : Failure StorageError :=
  .refused (.transaction e)

namespace Ledger

def write (l : Ledger) (tx : Transaction) (payload : String) :
    Ledger × Attempt StorageError Transaction :=
  match l.writeEntry tx payload with
  | .error e => (l, .error (refuseTransaction e))
  | .ok entry => (l.record entry, tx.recordWrite.mapError refuseTransaction)

def commit (l : Ledger) (tx : Transaction) :
    Ledger × Attempt StorageError (Transaction × Txid) :=
  match l.commitEntry tx with
  | .error e => (l, .error (e.map .transaction))
  | .ok entry =>
      let committed := l.record entry
      (committed, (tx.commit.mapError refuseTransaction).map (·, committed.lastTxid))

def rollback (l : Ledger) (tx : Transaction) : Ledger × Attempt StorageError Transaction :=
  match l.check tx with
  | .error e => (l, .error (refuseTransaction e))
  | .ok () => (l.discard tx.id, tx.rollback.mapError refuseTransaction)

instance : Journal Ledger where
  start := start
  write := write
  commit := commit
  rollback := rollback
  committedSince := committedSince
  lastTxid := lastTxid
  purge l through := (l.purge through, .ok ())

end Ledger

end TierTree
