import TierTree.Checksum
import TierTree.Json.Printer
import TierTree.Json.Reader
import TierTree.Json.Record
import TierTree.Log.Error
import TierTree.Failure

/-!
Checkpoints. A checkpoint is a stored text together with the number of the
last transaction that went into it, and a checksum of both.
-/

namespace TierTree

structure Checkpoint where
  txid : Txid
  payload : String
  checksum : UInt32
  deriving DecidableEq, Repr

namespace Checkpoint

/-- The eight bytes of a number, the low ones first. -/
def littleEndian (n : UInt64) : List UInt8 :=
  (List.range 8).map fun i => UInt8.ofNat (n.toNat >>> (8 * i))

/-- The checksum of a number and a payload. -/
def checksumOf (txid : Txid) (payload : String) : UInt32 :=
  Checksum.crc32 (littleEndian txid ++ Utf8.encode payload)

/-- The checkpoint of a payload, with its checksum. -/
def stamp (txid : Txid) (payload : String) : Checkpoint :=
  ⟨txid, payload, checksumOf txid payload⟩

def isValid (c : Checkpoint) : Bool := checksumOf c.txid c.payload = c.checksum

/-- A checkpoint that was read back, if its checksum is right. -/
def verified (c : Checkpoint) : Except StorageError Checkpoint :=
  if c.isValid then .ok c else .error (.checksumMismatch c.txid)

def toValue (c : Checkpoint) : Json.Value :=
  .record [
    ("txid", .nat c.txid.toNat),
    ("payload", .text c.payload),
    ("checksum", .nat c.checksum.toNat)]

def ofValue? (v : Json.Value) : Option Checkpoint := do
  let r ← v.record? ["txid", "payload", "checksum"]
  return {
    txid := ← r.required "txid" Json.Value.uint64?
    payload := ← r.required "payload" Json.Value.text?
    checksum := ← r.required "checksum" Json.Value.uint32? }

/-- The checkpoint as a JSON text. -/
def render (c : Checkpoint) : String := c.toValue.render

/-- The checkpoint that bytes are the text of. -/
def parse? (bytes : List UInt8) : Option Checkpoint := (Json.parseBytes bytes).bind ofValue?

end Checkpoint

/-- A place where the latest checkpoint is kept. -/
class Vault (C : Type) where
  save : C → Checkpoint → C × Except StorageError Unit
  load : C → Except StorageError (Option Checkpoint)

/-- A checkpoint kept in memory. -/
structure CheckpointSlot where
  kept : Option Checkpoint
  deriving DecidableEq, Repr

namespace CheckpointSlot

def empty : CheckpointSlot := ⟨none⟩

def save (_ : CheckpointSlot) (c : Checkpoint) : CheckpointSlot × Except StorageError Unit :=
  (⟨some c⟩, .ok ())

def load (slot : CheckpointSlot) : Except StorageError (Option Checkpoint) :=
  match slot.kept with
  | none => .ok none
  | some c => c.verified.map some

instance : Vault CheckpointSlot := ⟨save, load⟩

end CheckpointSlot

/-- A checkpoint kept in a file, which need not be there. `blocked` says that a
new file cannot be made beside it. -/
structure CheckpointFile where
  content : Option (List UInt8)
  blocked : Bool
  deriving DecidableEq, Repr

namespace CheckpointFile

def fileName : String := "fsimage.json"

/-- Write a checkpoint to a new file that takes the place of the old one. -/
def save (file : CheckpointFile) (c : Checkpoint) :
    CheckpointFile × Except StorageError Unit :=
  if file.blocked then (file, .error (.io .blocked))
  else ({ file with content := some (Utf8.encode c.render) }, .ok ())

def load (file : CheckpointFile) : Except StorageError (Option Checkpoint) :=
  match file.content with
  | none => .ok none
  | some bytes =>
      match Checkpoint.parse? bytes with
      | none => .error .unreadable
      | some c => c.verified.map some

instance : Vault CheckpointFile := ⟨save, load⟩

end CheckpointFile

end TierTree
