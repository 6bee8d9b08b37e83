import TierTree.Log.Entry
import TierTree.Log.Sink

/-!
Why storage refuses a call.
-/

namespace TierTree

inductive StorageError where
  | io (cause : IoError)
  | unreadable
  | transaction (cause : TransactionError)
  | checksumMismatch (txid : Txid)
  | corruptEdit (txid : Txid)
  | logFailed (file : String)
  deriving DecidableEq, Repr

def StorageError.message : StorageError → String
  | io cause => "I/O error: " ++ cause.message
  | unreadable => "Serialization error"
  | transaction cause => "Transaction error: " ++ cause.message
  | checksumMismatch txid =>
      "Checkpoint at txid " ++ toString txid.toNat ++ " failed checksum validation"
  | corruptEdit txid => "Corrupt storage: edit at txid " ++ toString txid.toNat
  | logFailed file => "Edit log " ++ file ++ " is unusable until it is reopened"

end TierTree
