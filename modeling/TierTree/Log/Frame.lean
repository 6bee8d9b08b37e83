import TierTree.Checksum
import TierTree.Log.Entry

/-!
Entries as lines of a file. A line is the checksum of the entry in eight
hexadecimal digits, a space, and the entry as JSON. Reading ends at the first
line that is torn or damaged.
-/

namespace TierTree.Frame

/-- The bytes of a JSON text behind its checksum, with a line feed at the end. -/
def encodeText (text : String) : List UInt8 :=
  let bytes := Utf8.encode text
  Utf8.encode (String.ofList (Hex.digits 8 (Checksum.crc32 bytes).toNat)) ++ 32 :: bytes ++ [10]

/-- The line of an entry. -/
def encode (e : LogEntry) : List UInt8 := encodeText e.render

/-- The lines of entries, one after another. -/
def encodeAll (entries : List LogEntry) : List UInt8 := entries.flatMap encode

/-- The 32-bit number that a checksum field stands for. A plus sign, zeros in
front and digits of either case are read as well. -/
def readSum? (field : List Char) : Option Nat :=
  let ds := match field with
    | '+' :: rest => rest
    | _ => field
  if ds = [] then none else (Hex.read? ds).filter (· < UInt32.size)

/-- The entry of a line without its line feed. -/
def decode? (line : List UInt8) : Option LogEntry := do
  let text ← Utf8.decode? line
  match text.toList.dropWhile (· ≠ ' ') with
  | [] => none
  | _ :: json =>
      let sum ← readSum? (text.toList.takeWhile (· ≠ ' '))
      let json := String.ofList json
      if (Checksum.crc32 (Utf8.encode json)).toNat = sum then LogEntry.parse? json else none

/-- Read on after the bytes of an unfinished line, which are kept in reverse.
The intact entries come back with the number of bytes of their lines. -/
def scan : List UInt8 → List UInt8 → List LogEntry × Nat
  | _, [] => ([], 0)
  | line, b :: rest =>
      if b = 10 then
        match decode? line.reverse with
        | none => ([], 0)
        | some e =>
            let further := scan [] rest
            (e :: further.1, line.length + 1 + further.2)
      else scan (b :: line) rest

/-- The intact entries at the front of a file and the number of bytes they
take. -/
def readAll (bytes : List UInt8) : List LogEntry × Nat := scan [] bytes

end TierTree.Frame
