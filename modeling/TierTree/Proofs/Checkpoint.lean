import TierTree.Proofs.Checksum
import TierTree.Proofs.Log.Journal

/-!
Damaged checkpoints. A checkpoint that was stamped is loaded as it was saved. One
in which a byte of the payload or of the number was changed, or the checksum alone,
is refused with its number.
-/

namespace TierTree

namespace Checksum

variable {bytes other : List UInt8}

/-- Byte strings of the same length that differ in a single byte. -/
def OneByteApart (bytes other : List UInt8) : Prop :=
  ∃ front b c back, b ≠ c ∧ bytes = front ++ b :: back ∧ other = front ++ c :: back

theorem OneByteApart.within (h : OneByteApart bytes other) (before behind : List UInt8) :
    OneByteApart (before ++ (bytes ++ behind)) (before ++ (other ++ behind)) := by
  obtain ⟨front, b, c, back, hOther, rfl, rfl⟩ := h
  exact ⟨before ++ front, b, c, back ++ behind, hOther, by simp, by simp⟩

theorem crc32_ne_of_oneByteApart (h : OneByteApart bytes other) : crc32 bytes ≠ crc32 other := by
  obtain ⟨front, b, c, back, hOther, rfl, rfl⟩ := h
  exact mt (crc32_byte_inj front back).mp hOther

end Checksum

namespace Checkpoint

open Checksum

/-- The damage to a checkpoint that its checksum tells: one byte of the payload, one
of the eight bytes of the number, or the checksum itself is another one, and all else
is the same. -/
inductive Damaged (c d : Checkpoint) : Prop
  | payload (sameTxid : d.txid = c.txid) (sameSum : d.checksum = c.checksum)
      (byte : OneByteApart (Utf8.encode c.payload) (Utf8.encode d.payload))
  | txid (samePayload : d.payload = c.payload) (sameSum : d.checksum = c.checksum)
      (byte : OneByteApart (littleEndian c.txid) (littleEndian d.txid))
  | checksum (sameTxid : d.txid = c.txid) (samePayload : d.payload = c.payload)
      (other : d.checksum ≠ c.checksum)

/-- What comes back when a checkpoint is saved and then loaded, in memory and in a
file that can be replaced. -/
structure LoadsAs (c : Checkpoint) (answer : Except StorageError (Option Checkpoint)) : Prop where
  inMemory : ∀ slot : CheckpointSlot, ∃ kept, slot.save c = (kept, .ok ()) ∧ kept.load = answer
  inFile : ∀ file : CheckpointFile, file.blocked = false →
    ∃ kept, file.save c = (kept, .ok ()) ∧ kept.load = answer

variable {c d : Checkpoint}

/-- What was saved is read back and verified. -/
theorem loadsAs_verified (c : Checkpoint) : c.LoadsAs (c.verified.map some) where
  inMemory _ := ⟨_, rfl, rfl⟩
  inFile file hFree := by
    refine ⟨_, CheckpointFile.save_of_free hFree c, ?_⟩
    simp only [CheckpointFile.load, parse?_render]

theorem loadsAs_of_mismatch (h : checksumOf c.txid c.payload ≠ c.checksum) :
    c.LoadsAs (.error (.checksumMismatch c.txid)) := by
  have hRefused : c.verified = .error (.checksumMismatch c.txid) := by
    simp [verified, isValid, h]
  have hLoads := c.loadsAs_verified
  rwa [hRefused] at hLoads

theorem checksumOf_ne_of_payload {payload payload' : String}
    (h : OneByteApart (Utf8.encode payload) (Utf8.encode payload')) (txid : Txid) :
    checksumOf txid payload ≠ checksumOf txid payload' := by
  have hApart := h.within (littleEndian txid) []
  rw [List.append_nil, List.append_nil] at hApart
  exact crc32_ne_of_oneByteApart hApart

theorem checksumOf_ne_of_txid {txid txid' : Txid}
    (h : OneByteApart (littleEndian txid) (littleEndian txid')) (payload : String) :
    checksumOf txid payload ≠ checksumOf txid' payload :=
  crc32_ne_of_oneByteApart (h.within [] (Utf8.encode payload))

/-- Damage leaves a checksum that does not belong to the number and the payload. -/
theorem Damaged.mismatch {txid : Txid} {payload : String} (h : (stamp txid payload).Damaged d) :
    checksumOf d.txid d.payload ≠ d.checksum := by
  cases h with
  | payload sameTxid sameSum byte =>
      rw [sameTxid, sameSum]
      exact (checksumOf_ne_of_payload byte txid).symm
  | txid samePayload sameSum byte =>
      rw [samePayload, sameSum]
      exact (checksumOf_ne_of_txid byte payload).symm
  | checksum sameTxid samePayload other =>
      rw [sameTxid, samePayload]
      exact other.symm

/-- A stamped checkpoint comes back as it was saved. Once it is damaged it is refused
for its checksum, with the number that is then stored in it. -/
theorem damage_refused (txid : Txid) (payload : String) :
    (stamp txid payload).LoadsAs (.ok (some (stamp txid payload))) ∧
      ∀ d, (stamp txid payload).Damaged d → d.LoadsAs (.error (.checksumMismatch d.txid)) := by
  constructor
  · have hLoads := (stamp txid payload).loadsAs_verified
    rwa [verified_stamp] at hLoads
  · exact fun d hDamaged => loadsAs_of_mismatch hDamaged.mismatch

/-- The second byte of an accented letter in the payload is changed, or the highest
byte of the number. -/
theorem damage_refused_accent_and_number :
    ∃ c : Checkpoint, c = stamp 3 "[\"é\"]" ∧ c.LoadsAs (.ok (some c)) ∧
      c.Damaged ⟨3, "[\"è\"]", c.checksum⟩ ∧
      LoadsAs ⟨3, "[\"è\"]", c.checksum⟩ (.error (.checksumMismatch 3)) ∧
      c.Damaged ⟨0x0100000000000003, "[\"é\"]", c.checksum⟩ ∧
      LoadsAs ⟨0x0100000000000003, "[\"é\"]", c.checksum⟩
        (.error (.checksumMismatch 0x0100000000000003)) := by
  obtain ⟨hIntact, hRefused⟩ := damage_refused 3 "[\"é\"]"
  have hAccent : OneByteApart (Utf8.encode "[\"é\"]") (Utf8.encode "[\"è\"]") :=
    ⟨[91, 34, 195], 169, 168, [34, 93], by decide, by decide, by decide⟩
  have hNumber : OneByteApart (littleEndian 3) (littleEndian 0x0100000000000003) :=
    ⟨[3, 0, 0, 0, 0, 0, 0], 0, 1, [], by decide, by decide, by decide⟩
  have hFirst : (stamp 3 "[\"é\"]").Damaged ⟨3, "[\"è\"]", (stamp 3 "[\"é\"]").checksum⟩ :=
    .payload rfl rfl hAccent
  have hSecond : (stamp 3 "[\"é\"]").Damaged
      ⟨0x0100000000000003, "[\"é\"]", (stamp 3 "[\"é\"]").checksum⟩ :=
    .txid rfl rfl hNumber
  exact ⟨_, rfl, hIntact, hFirst, hRefused _ hFirst, hSecond, hRefused _ hSecond⟩

end Checkpoint

end TierTree
