import TierTree.Json.Numeral

/-!
JSON values. Members of an object keep their order and their repetitions, and
a string is kept even where it stands for no text, because a reader that skips
it does not look inside.
-/

namespace TierTree.Json

/-- A JSON value. A string or key is `none` when its bytes or its escapes make
no Unicode text. -/
inductive Value where
  | null
  | bool (value : Bool)
  | number (value : Numeral)
  | string (text : Option String)
  | array (items : List Value)
  | object (members : List (Option String × Value))
  deriving Inhabited, Repr

namespace Value

def text (s : String) : Value := .string (some s)

def nat (n : Nat) : Value := .number (.ofNat n)

/-- A value that may be missing; the missing one is written `null`. -/
def option {α : Type} (encode : α → Value) : Option α → Value
  | none => .null
  | some a => encode a

def list {α : Type} (encode : α → Value) (l : List α) : Value := .array (l.map encode)

/-- An object from its members in order. -/
def record (members : List (String × Value)) : Value :=
  .object (members.map fun m => (some m.1, m.2))

def text? : Value → Option String
  | .string s => s
  | _ => none

def bool? : Value → Option Bool
  | .bool b => some b
  | _ => none

/-- The count below `bound` that a value stands for. -/
def natBelow? (bound : Nat) : Value → Option Nat
  | .number n => n.toNat?.filter (· < bound)
  | _ => none

def uint8? (v : Value) : Option UInt8 := (v.natBelow? UInt8.size).map UInt8.ofNat

def uint16? (v : Value) : Option UInt16 := (v.natBelow? UInt16.size).map UInt16.ofNat

def uint32? (v : Value) : Option UInt32 := (v.natBelow? UInt32.size).map UInt32.ofNat

def uint64? (v : Value) : Option UInt64 := (v.natBelow? UInt64.size).map UInt64.ofNat

/-- Read `null` as a missing value. -/
def option? {α : Type} (decode : Value → Option α) : Value → Option (Option α)
  | .null => some none
  | v => (decode v).map some

def list? {α : Type} (decode : Value → Option α) : Value → Option (List α)
  | .array items => items.mapM decode
  | _ => none

/-- The name of a value that is only a name: a string, or an object with
`null` under it. -/
def name? : Value → Option String
  | .string s => s
  | .object [(some s, .null)] => some s
  | _ => none

mutual

/-- Whether a value can be taken in whole, with containers nested at most
`room` deep: every string is a text and every number fits a double. -/
def fits : Nat → Value → Bool
  | _, .null => true
  | _, .bool _ => true
  | _, .number n => !n.overflows
  | _, .string s => s.isSome
  | 0, .array _ => false
  | 0, .object _ => false
  | room + 1, .array items => itemsFit room items
  | room + 1, .object members => membersFit room members

def itemsFit : Nat → List Value → Bool
  | _, [] => true
  | room, v :: rest => fits room v && itemsFit room rest

def membersFit : Nat → List (Option String × Value) → Bool
  | _, [] => true
  | room, (key, v) :: rest => key.isSome && fits room v && membersFit room rest

end

end Value

end TierTree.Json
