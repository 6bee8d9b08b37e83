import Mathlib.Data.List.FinRange
import TierTree.Proofs.Log.Lines

/-!
Files that break off. Wherever the lines of entries are cut, what is read of
them are the entries whose lines are whole, also behind what was recovered of
another file.
-/

namespace TierTree.Frame

variable {e : LogEntry} {entries : List LogEntry} {size : Nat}

/-- The entries whose lines lie within the first `size` bytes of all the lines
together. -/
def wholeWithin (entries : List LogEntry) (size : Nat) : List LogEntry :=
  ((List.finRange entries.length).filter fun i : Fin entries.length =>
    (encodeAll (entries.take (i + 1))).length ≤ size).map entries.get

theorem length_encodeAll_cons (e : LogEntry) (entries : List LogEntry) :
    (encodeAll (e :: entries)).length = (encode e).length + (encodeAll entries).length :=
  List.length_append

/-- An entry whose line is whole comes before those that are whole in the rest. -/
theorem wholeWithin_cons_of_le (h : (encode e).length ≤ size) :
    wholeWithin (e :: entries) size = e :: wholeWithin entries (size - (encode e).length) := by
  have hFirst : (encodeAll [e]).length ≤ size := by
    rwa [length_encodeAll_cons, show encodeAll [] = [] from rfl, List.length_nil, Nat.add_zero]
  have hRest : ∀ i : Fin entries.length,
      (encodeAll ((e :: entries).take (i.succ + 1))).length ≤ size ↔
        (encodeAll (entries.take (i + 1))).length ≤ size - (encode e).length := by
    intro i
    rw [Fin.val_succ, List.take_succ_cons, length_encodeAll_cons]
    omega
  simp only [wholeWithin, List.length_cons, List.finRange_succ, List.filter_cons, List.filter_map,
    Function.comp_def, hRest]
  simp [hFirst, Function.comp_def]

/-- Nothing is whole where the first line is not. -/
theorem wholeWithin_cons_of_lt (h : size < (encode e).length) :
    wholeWithin (e :: entries) size = [] := by
  rw [wholeWithin, List.map_eq_nil_iff, List.filter_eq_nil_iff]
  intro i _
  rw [List.take_succ_cons, length_encodeAll_cons]
  simp only [decide_eq_true_eq]
  omega

/-- Of lines that are cut anywhere, those that are whole are read. -/
theorem readAll_take (entries : List LogEntry) (size : Nat) :
    readAll ((encodeAll entries).take size) =
      (wholeWithin entries size, (encodeAll (wholeWithin entries size)).length) := by
  induction entries generalizing size with
  | nil => rw [show encodeAll [] = [] from rfl, List.take_nil]; rfl
  | cons e rest ih =>
      rw [encodeAll_cons, List.take_append]
      by_cases hWhole : (encode e).length ≤ size
      · rw [List.take_of_length_le hWhole, readAll_cons, ih, wholeWithin_cons_of_le hWhole,
          length_encodeAll_cons]
      · have hTorn : size < (encode e).length := Nat.lt_of_not_le hWhole
        rw [Nat.sub_eq_zero_of_le (Nat.le_of_lt hTorn), List.take_zero, List.append_nil,
          readAll_torn (feedless_take hTorn), wholeWithin_cons_of_lt hTorn]
        rfl

/-- The framing of lines survives a cut at any byte. Whatever a file held, what
was recovered of it is read again, and with it those entries appended behind it
whose lines have come into the file as a whole. -/
theorem cut_keeps_whole_lines (bytes : List UInt8) (entries : List LogEntry) (size : Nat) :
    readAll (bytes.take (readAll bytes).2 ++ (encodeAll entries).take size) =
      ((readAll bytes).1 ++ wholeWithin entries size,
        (readAll bytes).2 + (encodeAll (wholeWithin entries size)).length) := by
  have hRecovered := (lines_readAll bytes).readAll_append ((encodeAll entries).take size)
  rw [List.length_take, Nat.min_eq_left (readAll_le bytes), readAll_take] at hRecovered
  exact hRecovered

end TierTree.Frame
