import TierTree.Json.Printer
import TierTree.Json.Reader

/-!
Strings of a JSON text. What the printer puts between quotes is read back as
the text it stands for, whatever follows the closing quote.
-/

namespace TierTree

namespace Utf8

/-- The UTF-8 bytes of characters. -/
def bytes (cs : List Char) : List UInt8 := cs.flatMap String.utf8EncodeChar

@[simp] theorem bytes_nil : bytes [] = [] := rfl

theorem bytes_cons (c : Char) (cs : List Char) :
    bytes (c :: cs) = String.utf8EncodeChar c ++ bytes cs := rfl

@[simp] theorem bytes_append (cs ds : List Char) : bytes (cs ++ ds) = bytes cs ++ bytes ds := by
  simp [bytes]

theorem encode_eq_bytes (text : String) : encode text = bytes text.toList := rfl

@[simp] theorem encode_ofList (cs : List Char) : encode (String.ofList cs) = bytes cs := by
  rw [encode_eq_bytes, String.toList_ofList]

theorem utf8EncodeChar_ascii {c : Char} (h : c.toNat < 128) :
    String.utf8EncodeChar c = [UInt8.ofNat c.toNat] := by
  change c.val.toNat < 128 at h
  unfold String.utf8EncodeChar
  simp only
  rw [if_pos (by omega)]
  rfl

theorem le_of_mem_utf8EncodeChar {c : Char} (h : 128 ≤ c.toNat) {b : UInt8}
    (hMem : b ∈ String.utf8EncodeChar c) : 128 ≤ b.toNat := by
  change 128 ≤ c.val.toNat at h
  unfold String.utf8EncodeChar at hMem
  simp only at hMem
  split at hMem
  · omega
  · split at hMem
    · simp only [List.mem_cons, List.not_mem_nil, or_false] at hMem
      rcases hMem with rfl | rfl <;> simp <;> omega
    · split at hMem
      · simp only [List.mem_cons, List.not_mem_nil, or_false] at hMem
        rcases hMem with rfl | rfl | rfl <;> simp <;> omega
      · simp only [List.mem_cons, List.not_mem_nil, or_false] at hMem
        rcases hMem with rfl | rfl | rfl | rfl <;> simp <;> omega

/-- Characters of the first 128 are bytes of their own. -/
theorem bytes_of_ascii {cs : List Char} (h : ∀ c ∈ cs, c.toNat < 128) :
    bytes cs = cs.map fun c => UInt8.ofNat c.toNat := by
  induction cs with
  | nil => rfl
  | cons c rest ih =>
      rw [bytes_cons, utf8EncodeChar_ascii (h c (by simp)),
        ih fun d hMem => h d (List.mem_cons_of_mem _ hMem)]
      rfl

end Utf8

namespace Json

open Utf8

/-- Bytes that stand for themselves in a string. -/
def IsPlain (b : UInt8) : Prop := b ≠ 34 ∧ b ≠ 92 ∧ 32 ≤ b.toNat

theorem readPieces_plain {b : UInt8} (h : IsPlain b) (tail : List UInt8) :
    readPieces (b :: tail) = (readPieces tail).map fun r => (.byte b :: r.1, r.2) := by
  obtain ⟨hQuote, hEscape, hControl⟩ := h
  have hNot : ¬ b < 32 := by
    rw [UInt8.lt_iff_toNat_lt]
    exact Nat.not_lt.mpr hControl
  simp [readPieces, hEscape, hNot]

theorem readPieces_plains {bs : List UInt8} (h : ∀ b ∈ bs, IsPlain b) (tail : List UInt8) :
    readPieces (bs ++ tail) = (readPieces tail).map fun r => (bs.map .byte ++ r.1, r.2) := by
  induction bs with
  | nil => simp
  | cons b rest ih =>
      rw [List.cons_append, readPieces_plain (h b (by simp)),
        ih fun b' hMem => h b' (List.mem_cons_of_mem _ hMem), Option.map_map]
      rfl

theorem joinPieces_bytes (bs : List UInt8) (ps : List Piece) :
    joinPieces none (bs.map .byte ++ ps) = (joinPieces none ps).map (bs ++ ·) := by
  induction bs with
  | nil => simp
  | cons b rest ih => simp [joinPieces, ih, Function.comp_def]

/-- What one character of a string is written with stands for it. -/
def Spells (written : List UInt8) (c : Char) : Prop :=
  ∃ ps, (∀ tail, readPieces (written ++ tail) =
      (readPieces tail).map fun r => (ps ++ r.1, r.2)) ∧
    ∀ qs, joinPieces none (ps ++ qs) = (joinPieces none qs).map (String.utf8EncodeChar c ++ ·)

theorem spells_plain {c : Char} (h : ∀ b ∈ String.utf8EncodeChar c, IsPlain b) :
    Spells (String.utf8EncodeChar c) c :=
  ⟨(String.utf8EncodeChar c).map .byte, readPieces_plains h, joinPieces_bytes _⟩

/-- Short escapes stand for one character of a single byte. -/
theorem spells_short {c : Char} {n : Nat} (h : c.toNat = n) (letter : UInt8)
    (hLetter : shortEscape? letter = some (UInt8.ofNat n)) (hAscii : n < 128) :
    Spells [92, letter] c := by
  have hNot : letter ≠ 117 := by
    rintro rfl
    cases hLetter
  have hByte : String.utf8EncodeChar c = [UInt8.ofNat n] := by
    rw [utf8EncodeChar_ascii (h ▸ hAscii), h]
  refine ⟨[.byte (UInt8.ofNat n)], fun tail => ?_, fun qs => ?_⟩
  · cases tail <;> simp [readPieces, hNot, hLetter]
  · simp [joinPieces, hByte]

/-- Long escapes stand for the character of their unit, if it is one. -/
theorem spells_unit {c : Char} {a b d e : UInt8} (hUnit : unit? a b d e = some c.toNat)
    (hHigh : isHighSurrogate c.toNat = false) (hLow : isLowSurrogate c.toNat = false) :
    Spells [92, 117, a, b, d, e] c := by
  refine ⟨[.unit c.toNat], fun tail => ?_, fun qs => ?_⟩
  · simp [readPieces, hUnit]
  · simp [joinPieces, hHigh, hLow]

theorem isPlain_of_le {b : UInt8} (h : 128 ≤ b.toNat) : IsPlain b := by
  refine ⟨?_, ?_, by omega⟩ <;>
    rintro rfl <;>
    exact absurd h (by decide)

theorem unit?_control :
    ∀ n < 32, unit? 48 48 (UInt8.ofNat (Hex.digit (n / 16)).toNat)
      (UInt8.ofNat (Hex.digit (n % 16)).toNat) = some n := by
  decide

theorem bytes_control :
    ∀ n < 32, bytes ['\\', 'u', '0', '0', Hex.digit (n / 16), Hex.digit (n % 16)] =
      [92, 117, 48, 48, UInt8.ofNat (Hex.digit (n / 16)).toNat,
        UInt8.ofNat (Hex.digit (n % 16)).toNat] := by
  decide

/-- A character is read back from what it is written with. -/
theorem spells_escape (c : Char) : Spells (bytes (escape c)) c := by
  unfold escape
  split
  next h => exact spells_short h 34 rfl (by decide)
  next h => exact spells_short h 92 rfl (by decide)
  next h => exact spells_short h 98 rfl (by decide)
  next h => exact spells_short h 116 rfl (by decide)
  next h => exact spells_short h 110 rfl (by decide)
  next h => exact spells_short h 102 rfl (by decide)
  next h => exact spells_short h 114 rfl (by decide)
  next hQuote hEscape _ _ _ _ _ =>
    split
    next control =>
      rw [bytes_control _ control]
      refine spells_unit (unit?_control _ control) ?_ ?_
      · simp only [isHighSurrogate, Bool.and_eq_false_iff, decide_eq_false_iff_not]
        omega
      · simp only [isLowSurrogate, Bool.and_eq_false_iff, decide_eq_false_iff_not]
        omega
    next printed =>
      rw [bytes_cons, bytes_nil, List.append_nil]
      refine spells_plain fun b hMem => ?_
      by_cases hAscii : c.toNat < 128
      · rw [utf8EncodeChar_ascii hAscii, List.mem_singleton] at hMem
        have hValue : b.toNat = c.toNat := by
          rw [hMem, UInt8.toNat_ofNat', Nat.mod_eq_of_lt (by omega)]
        refine ⟨?_, ?_, by omega⟩
        · rintro rfl
          exact hQuote hValue.symm
        · rintro rfl
          exact hEscape hValue.symm
      · exact isPlain_of_le (le_of_mem_utf8EncodeChar (Nat.not_lt.mp hAscii) hMem)

theorem readPieces_escape (cs : List Char) (tail : List UInt8) :
    ∃ ps, readPieces (bytes (cs.flatMap escape) ++ 34 :: tail) = some (ps, tail) ∧
      joinPieces none ps = some (bytes cs) := by
  induction cs with
  | nil => exact ⟨[], rfl, rfl⟩
  | cons c rest ih =>
      obtain ⟨ps, hRead, hJoin⟩ := ih
      obtain ⟨first, hFirst, hChar⟩ := spells_escape c
      refine ⟨first ++ ps, ?_, ?_⟩
      · rw [List.flatMap_cons, bytes_append, List.append_assoc, hFirst, hRead]
        rfl
      · rw [hChar, hJoin]
        rfl

/-- A string is read back from what is written between its quotes. -/
theorem readString_escape (s : String) (tail : List UInt8) :
    readString (bytes (s.toList.flatMap escape) ++ 34 :: tail) = some (some s, tail) := by
  obtain ⟨ps, hRead, hJoin⟩ := readPieces_escape s.toList tail
  rw [readString, hRead, Option.map_some, hJoin, Option.bind_some, ← encode_eq_bytes,
    decode?_encode]

theorem bytes_quote (s : String) :
    bytes (quote (some s)) = 34 :: bytes (s.toList.flatMap escape) ++ [34] := by
  rw [quote, List.cons_append, bytes_cons, bytes_append]
  rfl

end Json

end TierTree
