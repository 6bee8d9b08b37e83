/-!
Comparison of texts up to the case of ASCII letters. Other letters match only
themselves.
-/

namespace TierTree.Text

/-- A text with its ASCII letters in lower case. -/
def foldCase (text : String) : List Char :=
  text.toList.map Char.toLower

/-- Whether two texts differ at most in the case of ASCII letters. -/
def matchesIgnoringCase (left right : String) : Bool :=
  foldCase left = foldCase right

theorem matchesIgnoringCase_iff {left right : String} :
    matchesIgnoringCase left right = true ↔ foldCase left = foldCase right := by
  simp [matchesIgnoringCase]

end TierTree.Text
