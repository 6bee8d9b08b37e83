import TierTree.Failure
import TierTree.Log.Entry

/-!
The log in memory: the entries in order, the highest number they carry, and
the transactions that are under way. Recovery returns only what was committed.
-/

namespace TierTree

structure Ledger where
  entries : List LogEntry
  lastTxid : Txid
  active : List TransactionId
  deriving DecidableEq, Repr

namespace Ledger

def empty : Ledger := ⟨[], 0, []⟩

/-- Append an entry. -/
def record (l : Ledger) (e : LogEntry) : Ledger :=
  match e with
  | .write _ _ => { l with entries := l.entries ++ [e] }
  | .commit tx txid =>
      { entries := l.entries ++ [e]
        lastTxid := max l.lastTxid txid
        active := l.active.filter (· ≠ tx) }
  | .checkpoint txid =>
      { l with entries := l.entries ++ [e], lastTxid := max l.lastTxid txid }

/-- Put other entries in the place of all entries. -/
def replaceEntries (l : Ledger) (entries : List LogEntry) : Ledger :=
  entries.foldl record { l with entries := [] }

/-- The log of stored entries. Transactions under way when they were stored
are abandoned. -/
def ofEntries (entries : List LogEntry) : Ledger := empty.replaceEntries entries

/-- Begin a transaction. -/
def start (l : Ledger) (id : TransactionId) : Ledger × Transaction :=
  ({ l with active := id :: l.active.filter (· ≠ id) }, .start id)

/-- Whether a transaction may go on in this log. -/
def check (l : Ledger) (tx : Transaction) : Except TransactionError Unit :=
  if !tx.isActive then .error .finalized
  else if tx.id ∈ l.active then .ok ()
  else .error (.unknown tx.id)

/-- The entry that a write of a transaction makes. -/
def writeEntry (l : Ledger) (tx : Transaction) (payload : String) :
    Except TransactionError LogEntry := do
  l.check tx
  return .write tx.id payload

/-- The entry that commits a transaction with the next number. -/
def commitEntry (l : Ledger) (tx : Transaction) : Attempt TransactionError LogEntry :=
  match l.check tx with
  | .error e => .error (.refused e)
  | .ok () =>
      match successor l.lastTxid with
      | .error f => .error (.fault f)
      | .ok next => .ok (.commit tx.id next)

/-- Forget a transaction and what it wrote. -/
def discard (l : Ledger) (id : TransactionId) : Ledger :=
  { l with
    active := l.active.filter (· ≠ id)
    entries := l.entries.filter fun e =>
      match e with
      | .write tx _ => tx ≠ id
      | _ => true }

/-- Collect committed transactions numbered above `after`. `pending` are the
writes so far that no commit has taken up. -/
def collect (after : Txid) : List (TransactionId × String) → List LogEntry → List CommittedRecord
  | _, [] => []
  | pending, .write tx payload :: rest => collect after (pending ++ [(tx, payload)]) rest
  | pending, .commit tx txid :: rest =>
      let later := collect after (pending.filter (·.1 ≠ tx)) rest
      if after < txid then
        ⟨txid, (pending.filter (·.1 = tx)).map (·.2)⟩ :: later
      else later
  | pending, .checkpoint _ :: rest => collect after pending rest

/-- The committed transactions numbered above `after`, in the order of their
commits. -/
def committedSince (l : Ledger) (after : Txid) : List CommittedRecord :=
  collect after [] l.entries

/-- The number that the last commit of a transaction carries. -/
def txidOf? (entries : List LogEntry) (id : TransactionId) : Option Txid :=
  entries.reverse.findSome? fun e =>
    match e with
    | .commit tx txid => if tx = id then some txid else none
    | _ => none

/-- The highest checkpoint among entries, `through` at least. -/
def checkpointTxid (through : Txid) (entries : List LogEntry) : Txid :=
  entries.foldl (fun highest e =>
    match e with
    | .checkpoint txid => max highest txid
    | _ => highest) through

/-- Whether an entry outlives a purge: it belongs to a transaction numbered
above `through`, or to one that is under way. -/
def outlives (l : Ledger) (through : Txid) : LogEntry → Bool
  | .write tx _ =>
      match txidOf? l.entries tx with
      | some txid => through < txid
      | none => tx ∈ l.active
  | .commit _ txid => through < txid
  | .checkpoint _ => false

/-- The entries left by a purge of everything up to a number, behind a
checkpoint of that number. -/
def purgedEntries (l : Ledger) (through : Txid) : List LogEntry :=
  .checkpoint (checkpointTxid through l.entries) :: l.entries.filter (l.outlives through)

/-- Drop every transaction up to a number. The numbering goes on as before. -/
def purge (l : Ledger) (through : Txid) : Ledger := l.replaceEntries (l.purgedEntries through)

end Ledger

end TierTree
