/-!
Numbers of a JSON text, kept as they are written: only a plain run of digits
stands for a count, whatever its value. A reader that has to hold any number
at all holds it as a binary double; `overflows` says when it cannot.
-/

namespace TierTree.Json

/-- The written parts of a number. The digits of a fraction are empty when no
point is written. -/
structure Numeral where
  negative : Bool
  whole : List Char
  fraction : List Char
  exponent : Option Int
  deriving DecidableEq, Repr

namespace Numeral

/-- The numeral of a count. -/
def ofNat (n : Nat) : Numeral :=
  ⟨false, Nat.toDigits 10 n, [], none⟩

/-- The count that a plain run of digits stands for. -/
def toNat? (n : Numeral) : Option Nat :=
  if n.negative = false ∧ n.fraction = [] ∧ n.exponent = none then
    some (Nat.ofDigitChars 10 n.whole 0)
  else none

@[simp] theorem toNat?_ofNat (n : Nat) : (ofNat n).toNat? = some n := by
  simp [ofNat, toNat?, Nat.ofDigitChars_toDigits]

def chars (n : Numeral) : List Char :=
  (if n.negative then ['-'] else []) ++ n.whole ++
    (if n.fraction = [] then [] else '.' :: n.fraction) ++
    match n.exponent with
    | none => []
    | some e => 'e' :: (toString e).toList

/-- Take digits onto a 64-bit number as long as it can hold them. The second
component counts the digits left over. -/
def takeDigits : Nat → List Char → Nat × Nat
  | number, [] => (number, 0)
  | number, c :: rest =>
      let longer := Nat.ofDigitChars 10 [c] number
      if longer < UInt64.size then takeDigits longer rest else (number, rest.length + 1)

/-- The nearest number with a 53-bit significand, ties to an even one. -/
def roundToDouble (n : Nat) : Nat :=
  if n < 1 <<< 53 then n
  else
    let dropped := n.log2 - 52
    let kept := n >>> dropped
    let rest := n % (1 <<< dropped)
    let half := 1 <<< (dropped - 1)
    let rounded := if rest > half ∨ (rest = half ∧ kept % 2 = 1) then kept + 1 else kept
    rounded <<< dropped

/-- Whether the number is too large for a double. It is formed as the product
of the leading digits and a power of ten, each rounded before they are
multiplied. -/
def overflows (n : Numeral) : Bool :=
  let (leading, wholeLeft) := takeDigits 0 n.whole
  let (significand, fractionLeft) := takeDigits leading n.fraction
  let scale : Int :=
    wholeLeft - (n.fraction.length - fractionLeft : Nat) + n.exponent.getD 0
  significand ≠ 0 ∧ 0 ≤ scale ∧
    (308 < scale ∨
      1 <<< 1024 ≤
        roundToDouble (roundToDouble significand * roundToDouble (Nat.pow 10 scale.toNat)))

end Numeral

end TierTree.Json
