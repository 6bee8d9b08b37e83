import TierTree.Checkpoint
import TierTree.Proofs.Json.Fields

/-!
Log entries and checkpoints that are read back from their texts.
-/

namespace TierTree

open Json Value

section Transaction

@[simp] theorem TransactionId.ofValue?_toValue (id : TransactionId) :
    ofValue? id.toValue = some id := by
  simp [ofValue?, toValue, Uuid.read?_text]

@[simp] theorem TransactionId.plain_toValue (id : TransactionId) : id.toValue.Plain := .text _

@[simp] theorem TransactionId.fits_toValue (id : TransactionId) (room : Nat) :
    id.toValue.fits room = true :=
  fits_text _

end Transaction

namespace LogEntry

theorem ofValue?_toValue (e : LogEntry) : ofValue? e.toValue = some e := by
  cases e <;>
    simp [toValue, ofValue?, maxDepth, tagged?_record, record?_record, Record.required,
      Record.find?]

theorem plain_toValue (e : LogEntry) : e.toValue.Plain := by
  cases e <;> simp [toValue]

/-- An entry is read back from its text. -/
theorem parse?_render (e : LogEntry) : parse? e.render = some e := by
  rw [parse?, render, parse_render e.plain_toValue, Option.bind_some, ofValue?_toValue]

end LogEntry

namespace Checkpoint

theorem ofValue?_toValue (c : Checkpoint) : ofValue? c.toValue = some c := by
  simp [toValue, ofValue?, record?_record, Record.required, Record.find?]

theorem plain_toValue (c : Checkpoint) : c.toValue.Plain := by
  simp [toValue]

/-- A checkpoint is read back from the bytes of its text. -/
theorem parse?_render (c : Checkpoint) : parse? (Utf8.encode c.render) = some c := by
  have hParse := parse_render c.plain_toValue
  rw [parse] at hParse
  rw [parse?, render, hParse, Option.bind_some, ofValue?_toValue]

/-- The checksum of a stamped checkpoint is right. -/
theorem verified_stamp (txid : Txid) (payload : String) :
    (stamp txid payload).verified = .ok (stamp txid payload) := by
  simp [verified, isValid, stamp]

end Checkpoint

end TierTree
