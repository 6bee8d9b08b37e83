import TierTree.Text.Case
import TierTree.Text.Hex

/-!
Universally unique identifiers: 128 bits, written as 32 lower-case digits in
five groups. Reading takes the digits without hyphens as well, and the groups
in braces or behind the URN prefix, all in either case. What was written reads
back (`read?_text`).
-/

namespace TierTree

structure Uuid where
  bits : BitVec 128
  deriving DecidableEq, Repr

namespace Uuid

/-- The five groups of a list of digits, with hyphens between. -/
def hyphenate (ds : List Char) : List Char :=
  ds.take 8 ++ '-' :: (ds.drop 8).take 4 ++ '-' :: (ds.drop 12).take 4 ++
    '-' :: (ds.drop 16).take 4 ++ '-' :: ds.drop 20

def text (id : Uuid) : String :=
  String.ofList (hyphenate (Hex.digits 32 id.bits.toNat))

/-- The digits of a list in five groups of the right lengths. -/
def unhyphenate? (cs : List Char) : Option (List Char) :=
  if cs.length = 36 ∧ cs[8]? = some '-' ∧ cs[13]? = some '-' ∧ cs[18]? = some '-' ∧
      cs[23]? = some '-' then
    some (cs.take 8 ++ (cs.drop 9).take 4 ++ (cs.drop 14).take 4 ++ (cs.drop 19).take 4 ++
      cs.drop 24)
  else none

/-- What comes before the groups in a URN, in lower case. -/
def urnPrefix : String := "urn:uuid:"

/-- The digits of an identifier in any of the forms that are read. -/
def digits? (cs : List Char) : Option (List Char) :=
  if cs.length = 32 then some cs
  else if cs.length = 36 then unhyphenate? cs
  else if cs.length = 38 ∧ cs.head? = some '{' ∧ cs.getLast? = some '}' then
    unhyphenate? (cs.drop 1).dropLast
  else if cs.length = 45 ∧ Text.matchesIgnoringCase (String.ofList (cs.take 9)) urnPrefix then
    unhyphenate? (cs.drop 9)
  else none

def read? (text : String) : Option Uuid := do
  let ds ← digits? text.toList
  let value ← Hex.read? ds
  return ⟨BitVec.ofNat 128 value⟩

theorem length_hyphenate {ds : List Char} (h : ds.length = 32) : (hyphenate ds).length = 36 := by
  simp [hyphenate, h]

theorem unhyphenate?_append {a b c d e : List Char} (ha : a.length = 8) (hb : b.length = 4)
    (hc : c.length = 4) (hd : d.length = 4) (he : e.length = 12) :
    unhyphenate? (a ++ '-' :: b ++ '-' :: c ++ '-' :: d ++ '-' :: e) =
      some (a ++ b ++ c ++ d ++ e) := by
  simp [unhyphenate?, ha, hb, hc, hd, he, List.drop_append,
    List.drop_eq_nil_of_le]

theorem unhyphenate?_hyphenate {ds : List Char} (h : ds.length = 32) :
    unhyphenate? (hyphenate ds) = some ds := by
  have step (k n : Nat) : ds.take k ++ (ds.drop k).take n = ds.take (k + n) := by
    rw [List.take_add]
  rw [hyphenate, unhyphenate?_append (by simp [h]) (by simp [h]) (by simp [h]) (by simp [h])
    (by simp [h]), step, step, step, List.take_append_drop]

/-- An identifier reads back from its text. -/
theorem read?_text (id : Uuid) : read? id.text = some id := by
  have width := Hex.length_digits 32 id.bits.toNat
  have groups : digits? id.text.toList = some (Hex.digits 32 id.bits.toNat) := by
    simp [digits?, text, length_hyphenate width, unhyphenate?_hyphenate width]
  have bounded : id.bits.toNat < 1 <<< (4 * 32) := id.bits.isLt
  have value : Hex.read? (Hex.digits 32 id.bits.toNat) = some id.bits.toNat := by
    rw [Hex.read?_digits, Nat.mod_eq_of_lt bounded]
  simp [read?, groups, value]

end Uuid

end TierTree
