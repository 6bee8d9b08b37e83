import TierTree.Json.Value
import TierTree.Text.Hex

/-!
The compact text of a JSON value: no blanks, members in their order, and the
shortest escape wherever one is needed.
-/

namespace TierTree.Json

/-- How a character is written inside a string. Only quotes, backslashes and
control characters are escaped. -/
def escape (c : Char) : List Char :=
  match c.toNat with
  | 34 => ['\\', '"']
  | 92 => ['\\', '\\']
  | 8 => ['\\', 'b']
  | 9 => ['\\', 't']
  | 10 => ['\\', 'n']
  | 12 => ['\\', 'f']
  | 13 => ['\\', 'r']
  | n => if n < 32 then ['\\', 'u', '0', '0', Hex.digit (n / 16), Hex.digit (n % 16)] else [c]

/-- A string in quotes. One that stands for no text is written as a lone
surrogate. -/
def quote : Option String → List Char
  | some s => '"' :: s.toList.flatMap escape ++ ['"']
  | none => ['"', '\\', 'u', 'd', '8', '0', '0', '"']

mutual

def Value.chars : Value → List Char
  | .null => ['n', 'u', 'l', 'l']
  | .bool true => ['t', 'r', 'u', 'e']
  | .bool false => ['f', 'a', 'l', 's', 'e']
  | .number n => n.chars
  | .string s => quote s
  | .array items => '[' :: itemChars items ++ [']']
  | .object members => '{' :: memberChars members ++ ['}']

/-- Items with commas between them. -/
def itemChars : List Value → List Char
  | [] => []
  | [v] => v.chars
  | v :: w :: rest => v.chars ++ ',' :: itemChars (w :: rest)

/-- Members with commas between them. -/
def memberChars : List (Option String × Value) → List Char
  | [] => []
  | [(key, v)] => quote key ++ ':' :: v.chars
  | (key, v) :: m :: rest => quote key ++ ':' :: v.chars ++ ',' :: memberChars (m :: rest)

end

/-- The text of a value. -/
def Value.render (v : Value) : String := String.ofList v.chars

end TierTree.Json
