import TierTree.Json.Value
import TierTree.Text.Hex
import TierTree.Text.Utf8

/-!
Reading a JSON value from bytes. The grammar is checked everywhere; whether a
string stands for a text is recorded in the value and left to its user.
-/

namespace TierTree.Json

/-- Blanks between the parts of a text: tab, line feed, carriage return and
space. -/
def isGap (b : UInt8) : Bool := b = 9 || b = 10 || b = 13 || b = 32

def skipGaps (bytes : List UInt8) : List UInt8 := bytes.dropWhile isGap

/-- The 16-bit unit written by the four digits of an escape. -/
def unit? (a b c d : UInt8) : Option Nat :=
  Hex.read? [Char.ofNat a.toNat, Char.ofNat b.toNat, Char.ofNat c.toNat, Char.ofNat d.toNat]

/-- The character that a one-letter escape stands for. -/
def shortEscape? (b : UInt8) : Option UInt8 :=
  match b with
  | 34 => some 34
  | 92 => some 92
  | 47 => some 47
  | 98 => some 8
  | 102 => some 12
  | 110 => some 10
  | 114 => some 13
  | 116 => some 9
  | _ => none

def isHighSurrogate (u : Nat) : Bool := 0xD800 ≤ u && u < 0xDC00

def isLowSurrogate (u : Nat) : Bool := 0xDC00 ≤ u && u < 0xE000

/-- What a string is written with: plain bytes, and 16-bit units in escapes. -/
inductive Piece where
  | byte (b : UInt8)
  | unit (u : Nat)
  deriving DecidableEq, Repr

/-- The pieces of a string up to its closing quote, and the bytes after it. -/
def readPieces : List UInt8 → Option (List Piece × List UInt8)
  | [] => none
  | 34 :: rest => some ([], rest)
  | 92 :: 117 :: a :: b :: c :: d :: rest =>
      match unit? a b c d with
      | none => none
      | some u => (readPieces rest).map fun r => (.unit u :: r.1, r.2)
  | 92 :: e :: rest =>
      match shortEscape? e with
      | none => none
      | some b => (readPieces rest).map fun r => (.byte b :: r.1, r.2)
  | b :: rest =>
      if b < 32 then none else (readPieces rest).map fun r => (.byte b :: r.1, r.2)

/-- The bytes that pieces stand for, after a high surrogate that waits for its
low one. Surrogates stand for a character only in pairs. -/
def joinPieces : Option Nat → List Piece → Option (List UInt8)
  | none, [] => some []
  | some _, [] => none
  | none, .byte b :: rest => (joinPieces none rest).map (b :: ·)
  | some _, .byte _ :: _ => none
  | none, .unit u :: rest =>
      if isHighSurrogate u then joinPieces (some u) rest
      else if isLowSurrogate u then none
      else (joinPieces none rest).map (String.utf8EncodeChar (Char.ofNat u) ++ ·)
  | some high, .unit u :: rest =>
      if isLowSurrogate u then
        let c := Char.ofNat (0x10000 + (high - 0xD800) * 0x400 + (u - 0xDC00))
        (joinPieces none rest).map (String.utf8EncodeChar c ++ ·)
      else none

/-- The text of a string, read after its opening quote. -/
def readString (bytes : List UInt8) : Option (Option String × List UInt8) :=
  (readPieces bytes).map fun r => ((joinPieces none r.1).bind Utf8.decode?, r.2)

def isDigit (b : UInt8) : Bool := 48 ≤ b && b ≤ 57

def digitChars (bytes : List UInt8) : List Char :=
  (bytes.takeWhile isDigit).map fun b => Char.ofNat b.toNat

/-- The whole part of a number: a zero alone, or digits that start with
another one. -/
def readWhole (bytes : List UInt8) : Option (List Char × List UInt8) :=
  match digitChars bytes with
  | [] => none
  | ['0'] => some (['0'], bytes.dropWhile isDigit)
  | '0' :: _ => none
  | digits => some (digits, bytes.dropWhile isDigit)

/-- The digits after a point, none if there is no point. -/
def readFraction : List UInt8 → Option (List Char × List UInt8)
  | 46 :: rest =>
      match digitChars rest with
      | [] => none
      | digits => some (digits, rest.dropWhile isDigit)
  | bytes => some ([], bytes)

/-- The digits of an exponent after its sign. -/
def readPower (bytes : List UInt8) : Option (Nat × List UInt8) :=
  match digitChars bytes with
  | [] => none
  | digits => some (Nat.ofDigitChars 10 digits 0, bytes.dropWhile isDigit)

/-- The exponent of a number, if one is written. -/
def readExponent : List UInt8 → Option (Option Int × List UInt8)
  | b :: rest =>
      if b = 69 ∨ b = 101 then
        match rest with
        | 43 :: rest => (readPower rest).map fun r => (some (r.1 : Int), r.2)
        | 45 :: rest => (readPower rest).map fun r => (some (-(r.1 : Int)), r.2)
        | rest => (readPower rest).map fun r => (some (r.1 : Int), r.2)
      else some (none, b :: rest)
  | [] => some (none, [])

/-- The number at the front of the bytes. -/
def readNumeral (bytes : List UInt8) : Option (Numeral × List UInt8) := do
  let negative := bytes.head? = some 45
  let (whole, bytes) ← readWhole (if negative then bytes.drop 1 else bytes)
  let (fraction, bytes) ← readFraction bytes
  let (exponent, bytes) ← readExponent bytes
  return (⟨negative, whole, fraction, exponent⟩, bytes)

mutual

/-- The value at the front of the bytes, after blanks. Every call takes one
from `fuel`. -/
def readValue : Nat → List UInt8 → Option (Value × List UInt8)
  | 0, _ => none
  | fuel + 1, bytes =>
      match skipGaps bytes with
      | 110 :: 117 :: 108 :: 108 :: rest => some (.null, rest)
      | 116 :: 114 :: 117 :: 101 :: rest => some (.bool true, rest)
      | 102 :: 97 :: 108 :: 115 :: 101 :: rest => some (.bool false, rest)
      | 34 :: rest => (readString rest).map fun r => (.string r.1, r.2)
      | 91 :: rest =>
          match skipGaps rest with
          | 93 :: rest => some (.array [], rest)
          | rest => (readItems fuel rest).map fun r => (.array r.1, r.2)
      | 123 :: rest =>
          match skipGaps rest with
          | 125 :: rest => some (.object [], rest)
          | rest => (readMembers fuel rest).map fun r => (.object r.1, r.2)
      | bytes => (readNumeral bytes).map fun r => (.number r.1, r.2)

/-- Items up to the closing bracket; there is at least one. -/
def readItems : Nat → List UInt8 → Option (List Value × List UInt8)
  | 0, _ => none
  | fuel + 1, bytes => do
      let (v, rest) ← readValue fuel bytes
      match skipGaps rest with
      | 44 :: rest => (readItems fuel rest).map fun r => (v :: r.1, r.2)
      | 93 :: rest => some ([v], rest)
      | _ => none

/-- Members up to the closing brace; there is at least one. -/
def readMembers : Nat → List UInt8 → Option (List (Option String × Value) × List UInt8)
  | 0, _ => none
  | fuel + 1, bytes => do
      match skipGaps bytes with
      | 34 :: rest =>
          let (key, rest) ← readString rest
          match skipGaps rest with
          | 58 :: rest =>
              let (v, rest) ← readValue fuel rest
              match skipGaps rest with
              | 44 :: rest => (readMembers fuel rest).map fun r => ((key, v) :: r.1, r.2)
              | 125 :: rest => some ([(key, v)], rest)
              | _ => none
          | _ => none
      | _ => none

end

/-- The value that the bytes are the text of, with blanks around it. A value
takes at most two calls for each of its bytes. -/
def parseBytes (bytes : List UInt8) : Option Value := do
  let (v, rest) ← readValue (2 * bytes.length + 1) bytes
  if skipGaps rest = [] then some v else none

/-- The value that a string is the text of. -/
def parse (s : String) : Option Value := parseBytes (Utf8.encode s)

end TierTree.Json
