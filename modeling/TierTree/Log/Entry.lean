import TierTree.Json.Printer
import TierTree.Json.Reader
import TierTree.Json.Record
import TierTree.Log.Transaction

/-!
Entries of a log. The writes of a transaction count once its commit follows;
the commit carries the number of the transaction. A checkpoint stands for
everything up to its number.
-/

namespace TierTree

/-- The number of a committed transaction, from one up. -/
abbrev Txid := UInt64

inductive LogEntry where
  | write (tx : TransactionId) (payload : String)
  | commit (tx : TransactionId) (txid : Txid)
  | checkpoint (txid : Txid)
  deriving DecidableEq, Repr

namespace LogEntry

open Json

/-- The transaction an entry belongs to. -/
def transaction? : LogEntry → Option TransactionId
  | write tx _ => some tx
  | commit tx _ => some tx
  | checkpoint _ => none

def toValue : LogEntry → Value
  | write tx payload =>
      .record [("entry", .text "write"), ("tx_id", tx.toValue), ("payload", .text payload)]
  | commit tx txid =>
      .record [("entry", .text "commit"), ("tx_id", tx.toValue), ("txid", .nat txid.toNat)]
  | checkpoint txid => .record [("entry", .text "checkpoint"), ("txid", .nat txid.toNat)]

def ofValue? (v : Value) : Option LogEntry := do
  let (kind, rest) ← v.tagged? "entry" Value.maxDepth
  match kind with
  | "write" =>
      let r ← rest.record? ["tx_id", "payload"]
      return .write (← r.required "tx_id" TransactionId.ofValue?)
        (← r.required "payload" Value.text?)
  | "commit" =>
      let r ← rest.record? ["tx_id", "txid"]
      return .commit (← r.required "tx_id" TransactionId.ofValue?)
        (← r.required "txid" Value.uint64?)
  | "checkpoint" =>
      let r ← rest.record? ["txid"]
      return .checkpoint (← r.required "txid" Value.uint64?)
  | _ => none

/-- The entry as a JSON text. -/
def render (e : LogEntry) : String := e.toValue.render

/-- The entry that a text stands for. -/
def parse? (s : String) : Option LogEntry := (parse s).bind ofValue?

end LogEntry

/-- The payloads of one committed transaction, in the order they were written. -/
structure CommittedRecord where
  txid : Txid
  payloads : List String
  deriving DecidableEq, Repr

end TierTree
