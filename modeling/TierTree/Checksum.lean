/-!
The CRC-32 of a byte string: polynomial division bit by bit, low bits first,
with the register and the result inverted.
-/

namespace TierTree.Checksum

/-- One bit of the division. The polynomial is subtracted when a one is
shifted out. -/
def shift (register : UInt32) : UInt32 :=
  if register &&& 1 = 1 then (register >>> 1) ^^^ 0xEDB88320 else register >>> 1

/-- Feed one byte into the register. -/
def feed (register : UInt32) (byte : UInt8) : UInt32 :=
  Nat.repeat shift 8 (register ^^^ byte.toUInt32)

/-- The checksum of bytes fed in order. -/
def crc32 (bytes : List UInt8) : UInt32 :=
  bytes.foldl feed 0xFFFFFFFF ^^^ 0xFFFFFFFF

end TierTree.Checksum
