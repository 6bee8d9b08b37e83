import TierTree.Log.Frame
import TierTree.Log.Journal

/-!
The log in a file. An entry is on disk before it is in memory. A failed append
is cut off again; where even that fails, the log takes nothing more until it
is opened or purged. A purge puts a new file in the place of the old one and
opens it; where that fails, the log goes on writing to the old one.
-/

namespace TierTree

/-- A log in a file. `failed` says that a failed append is still on disk,
`blocked` that a new file cannot be made beside it, and `denied` that a new file
cannot be opened once it has taken its place. Where that happened, `replaced` is
the new file, and `sink` is the old one, which is found under no path any more. -/
structure LogFile where
  sink : Sink
  ledger : Ledger
  failed : Bool
  blocked : Bool
  denied : Bool
  replaced : Option (List UInt8)
  deriving DecidableEq, Repr

namespace LogFile

def fileName : String := "edits.log"

/-- Open the log in these bytes. What follows the intact entries is cut off. -/
def load (bytes : List UInt8) : LogFile :=
  let (entries, intact) := Frame.readAll bytes
  ⟨.reliable (bytes.take intact), .ofEntries entries, false, false, false, none⟩

/-- The bytes of the file at the path of the log, which opening the log finds. -/
def stored (log : LogFile) : List UInt8 := log.replaced.getD log.sink.bytes

/-- Append bytes and make them durable. -/
def appendDurably (s : Sink) (bytes : List UInt8) : Sink × Except IoError Unit :=
  match s.append bytes with
  | (s, .error e) => (s, .error e)
  | (s, .ok ()) => s.sync

/-- Cut a failed append off and make the cut durable. -/
def cutBack (s : Sink) (length : Nat) : Sink × Except IoError Unit :=
  match s.truncate length with
  | (s, .error e) => (s, .error e)
  | (s, .ok ()) => s.sync

/-- Bring an entry to the disk. -/
def persist (log : LogFile) (e : LogEntry) : LogFile × Except StorageError Unit :=
  if log.failed then (log, .error (.logFailed fileName))
  else
    match appendDurably log.sink (Frame.encode e) with
    | (s, .ok ()) => ({ log with sink := s }, .ok ())
    | (s, .error cause) =>
        match cutBack s log.sink.size with
        | (s, .ok ()) => ({ log with sink := s }, .error (.io cause))
        | (s, .error _) => ({ log with sink := s, failed := true }, .error (.io cause))

def start (log : LogFile) (id : TransactionId) : LogFile × Transaction :=
  let (ledger, tx) := log.ledger.start id
  ({ log with ledger := ledger }, tx)

def write (log : LogFile) (tx : Transaction) (payload : String) :
    LogFile × Attempt StorageError Transaction :=
  match log.ledger.writeEntry tx payload with
  | .error e => (log, .error (refuseTransaction e))
  | .ok entry =>
      match log.persist entry with
      | (log, .error e) => (log, .error (.refused e))
      | (log, .ok ()) =>
          ({ log with ledger := log.ledger.record entry },
            tx.recordWrite.mapError refuseTransaction)

def commit (log : LogFile) (tx : Transaction) :
    LogFile × Attempt StorageError (Transaction × Txid) :=
  match log.ledger.commitEntry tx with
  | .error e => (log, .error (e.map .transaction))
  | .ok entry =>
      match log.persist entry with
      | (log, .error e) => (log, .error (.refused e))
      | (log, .ok ()) =>
          let committed := log.ledger.record entry
          ({ log with ledger := committed },
            (tx.commit.mapError refuseTransaction).map (·, committed.lastTxid))

/-- A transaction is given up in memory; its lines stay on disk without a
commit. -/
def rollback (log : LogFile) (tx : Transaction) : LogFile × Attempt StorageError Transaction :=
  let (ledger, result) := log.ledger.rollback tx
  ({ log with ledger := ledger }, result)

/-- Write the entries left by a purge to a new file that takes the place of
the old one, and go over to it. If it cannot be opened, it has taken the place
of the old one all the same. -/
def purge (log : LogFile) (through : Txid) : LogFile × Attempt StorageError Unit :=
  if log.blocked then (log, .error (.refused (.io .blocked)))
  else
    let kept := log.ledger.purgedEntries through
    let bytes := Frame.encodeAll kept
    if log.denied then ({ log with replaced := some bytes }, .error (.refused (.io .reopen)))
    else
      ({ log with
          sink := log.sink.replace bytes
          ledger := log.ledger.replaceEntries kept
          failed := false
          replaced := none },
        .ok ())

instance : Journal LogFile where
  start := start
  write := write
  commit := commit
  rollback := rollback
  committedSince log := log.ledger.committedSince
  lastTxid log := log.ledger.lastTxid
  purge := purge

end LogFile

end TierTree
