import TierTree.Log.Frame
import TierTree.Proofs.Log.Codec

/-!
Files of entries that are read back. Reading the lines of entries gives these
entries, and goes on with whatever stands behind them.
-/

namespace TierTree.Frame

open Utf8 (bytes encode_ofList bytes_append)

theorem isHexDigit_digit : ∀ n < 16, Hex.digit n ≠ ' ' ∧ Hex.digit n ≠ '+' ∧
    32 ≤ (Hex.digit n).toNat := by
  decide

theorem exists_digit_of_mem {width number : Nat} {c : Char} (h : c ∈ Hex.digits width number) :
    ∃ n < 16, c = Hex.digit n := by
  induction width generalizing number with
  | zero => cases h
  | succ width ih =>
      rcases List.mem_append.mp h with hFront | hLast
      · exact ih hFront
      · exact ⟨_, Nat.mod_lt _ (by decide), List.mem_singleton.mp hLast⟩

theorem mem_digits {width number : Nat} {c : Char} (h : c ∈ Hex.digits width number) :
    c ≠ ' ' ∧ c ≠ '+' ∧ 32 ≤ c.toNat := by
  obtain ⟨n, hSmall, rfl⟩ := exists_digit_of_mem h
  exact isHexDigit_digit n hSmall

/-- The characters of a line before its line feed. -/
def lineChars (text : String) : List Char :=
  Hex.digits 8 (Checksum.crc32 (Utf8.encode text)).toNat ++ ' ' :: text.toList

theorem encodeText_eq (text : String) : encodeText text = bytes (lineChars text) ++ [10] := by
  rw [encodeText, lineChars, encode_ofList, bytes_append]
  rfl

theorem readSum?_digits (sum : UInt32) : readSum? (Hex.digits 8 sum.toNat) = some sum.toNat := by
  have hWidth := Hex.length_digits 8 sum.toNat
  have hRead : Hex.read? (Hex.digits 8 sum.toNat) = some sum.toNat := by
    have hSmall : sum.toNat < 1 <<< (4 * 8) := sum.toNat_lt
    rw [Hex.read?_digits, Nat.mod_eq_of_lt hSmall]
  generalize hDigits : Hex.digits 8 sum.toNat = ds at hWidth hRead
  cases ds with
  | nil => cases hWidth
  | cons d rest =>
      have hPlus : d ≠ '+' := (mem_digits (hDigits ▸ List.mem_cons_self)).2.1
      simp [readSum?, hPlus, hRead, sum.toNat_lt_size]

/-- A line stands for the entry of the text in it. -/
theorem decode?_lineChars (text : String) :
    decode? (bytes (lineChars text)) = LogEntry.parse? text := by
  have hDigits : ∀ c ∈ Hex.digits 8 (Checksum.crc32 (Utf8.encode text)).toNat,
      decide (c ≠ ' ') = true := fun c hMem => decide_eq_true (mem_digits hMem).1
  have hText : Utf8.decode? (bytes (lineChars text)) = some (String.ofList (lineChars text)) := by
    rw [← encode_ofList, Utf8.decode?_encode]
  rw [decode?, hText]
  simp only [Option.bind_eq_bind, Option.bind_some, String.toList_ofList]
  rw [lineChars, List.dropWhile_append_of_pos hDigits, List.takeWhile_append_of_pos hDigits]
  simp [readSum?_digits]

theorem decode?_encode (e : LogEntry) : decode? (bytes (lineChars e.render)) = some e := by
  rw [decode?_lineChars, LogEntry.parse?_render]

/-- A line holds no line feed. -/
theorem noFeed_lineChars (e : LogEntry) : ∀ b ∈ bytes (lineChars e.render), b ≠ 10 := by
  have hPrinted : Json.Printed (lineChars e.render) := by
    refine Json.printed_append (fun c hMem => (mem_digits hMem).2.2)
      (Json.printed_cons (by decide) ?_)
    rw [LogEntry.render, Json.Value.render, String.toList_ofList]
    exact e.plain_toValue.printed
  rintro b hMem rfl
  exact absurd (Json.le_of_mem_bytes hPrinted 10 hMem) (by decide)

theorem scan_line {line bs rest : List UInt8} (h : ∀ b ∈ bs, b ≠ 10) :
    scan line (bs ++ rest) = scan (bs.reverse ++ line) rest := by
  induction bs generalizing line with
  | nil => rfl
  | cons b more ih =>
      rw [List.cons_append, scan, if_neg (h b (by simp)),
        ih fun c hMem => h c (List.mem_cons_of_mem _ hMem)]
      simp

/-- Reading goes on behind the line of an entry. -/
theorem readAll_cons (e : LogEntry) (rest : List UInt8) :
    readAll (encode e ++ rest) =
      (e :: (readAll rest).1, (encode e).length + (readAll rest).2) := by
  rw [encode, encodeText_eq, List.append_assoc, readAll, scan_line (noFeed_lineChars e),
    List.singleton_append, scan]
  simp [decode?_encode, readAll]

theorem encodeAll_cons (e : LogEntry) (entries : List LogEntry) :
    encodeAll (e :: entries) = encode e ++ encodeAll entries := rfl

/-- Reading goes on behind the lines of entries. -/
theorem readAll_append (entries : List LogEntry) (rest : List UInt8) :
    readAll (encodeAll entries ++ rest) =
      (entries ++ (readAll rest).1, (encodeAll entries).length + (readAll rest).2) := by
  induction entries with
  | nil => simp [encodeAll]
  | cons e more ih =>
      rw [encodeAll_cons, List.append_assoc, readAll_cons, ih, List.length_append]
      simp [Nat.add_assoc]

/-- A file of entries holds these entries and nothing else. -/
theorem readAll_encodeAll (entries : List LogEntry) :
    readAll (encodeAll entries) = (entries, (encodeAll entries).length) := by
  have hRead := readAll_append entries []
  rwa [List.append_nil, show readAll [] = ([], 0) from rfl, List.append_nil, Nat.add_zero] at hRead

end TierTree.Frame
