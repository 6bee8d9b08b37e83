import TierTree.Json.Value
import TierTree.Uuid

/-!
Transactions over a log. Identifiers come from outside and are never used
twice.
-/

namespace TierTree

structure TransactionId where
  uuid : Uuid
  deriving DecidableEq, Repr

namespace TransactionId

def display (id : TransactionId) : String := "tx:" ++ id.uuid.text

def toValue (id : TransactionId) : Json.Value := .text id.uuid.text

def ofValue? (v : Json.Value) : Option TransactionId := (v.text?.bind Uuid.read?).map mk

end TransactionId

inductive TransactionState where
  | active
  | committed
  | rolledBack
  deriving DecidableEq, Repr

def TransactionState.name : TransactionState → String
  | active => "active"
  | committed => "committed"
  | rolledBack => "rolled_back"

inductive TransactionError where
  | finalized
  | unknown (id : TransactionId)
  deriving DecidableEq, Repr

def TransactionError.message : TransactionError → String
  | finalized => "Transaction already finalized"
  | unknown id => "Transaction " ++ id.display ++ " is not active on this log"

/-- A unit of work: what is written in it counts once it is committed. -/
structure Transaction where
  id : TransactionId
  state : TransactionState
  writes : Nat
  deriving DecidableEq, Repr

namespace Transaction

def start (id : TransactionId) : Transaction := ⟨id, .active, 0⟩

def isActive (tx : Transaction) : Bool := tx.state = .active

/-- Count one record written. -/
def recordWrite (tx : Transaction) : Except TransactionError Transaction :=
  if tx.isActive then .ok { tx with writes := tx.writes + 1 } else .error .finalized

def commit (tx : Transaction) : Except TransactionError Transaction :=
  if tx.isActive then .ok { tx with state := .committed } else .error .finalized

/-- Give the transaction up and forget its records. -/
def rollback (tx : Transaction) : Except TransactionError Transaction :=
  if tx.isActive then .ok { tx with state := .rolledBack, writes := 0 } else .error .finalized

end Transaction

end TierTree
