import TierTree.Proofs.Checksum
import TierTree.Proofs.Json.Local
import TierTree.Proofs.Log.Lines

/-!
Lines with a damaged byte. If one byte of the JSON of a line is another one
than was written, reading ends in front of this line. Either the checksum
differs, or the byte has become a line feed and the JSON breaks off there.
-/

namespace TierTree

namespace Utf8

theorem toNat_ascii {c : Char} (h : c.toNat < 128) : (UInt8.ofNat c.toNat).toNat = c.toNat :=
  UInt8.toNat_ofNat_of_lt' (Nat.lt_trans h (by decide))

/-- A text begins with the ASCII character whose byte its own bytes begin with. -/
theorem head_of_ascii {c d : Char} {front back : List UInt8} (hAscii : d.toNat < 128)
    (h : String.utf8EncodeChar c ++ front = String.utf8EncodeChar d ++ back) : c = d := by
  rw [utf8EncodeChar_ascii hAscii, List.singleton_append] at h
  have hSmall : c.toNat < 128 := by
    refine Nat.lt_of_not_le fun hLarge => ?_
    cases hBytes : String.utf8EncodeChar c with
    | nil => exact String.utf8EncodeChar_ne_nil hBytes
    | cons b more =>
        have hByte := le_of_mem_utf8EncodeChar hLarge (hBytes ▸ List.mem_cons_self (a := b))
        rw [hBytes] at h
        rw [(List.cons.inj h).1, toNat_ascii hAscii] at hByte
        exact Nat.not_le.mpr hAscii hByte
  rw [utf8EncodeChar_ascii hSmall, List.singleton_append] at h
  have hSame := congrArg UInt8.toNat (List.cons.inj h).1
  rw [toNat_ascii hSmall, toNat_ascii hAscii] at hSame
  exact Char.toNat_inj.mp hSame

/-- Text whose bytes begin with those of ASCII characters begins with these
characters. -/
theorem eq_append_of_bytes_eq {cs ds : List Char} {rest : List UInt8}
    (hAscii : ∀ d ∈ ds, d.toNat < 128) (h : bytes cs = bytes ds ++ rest) :
    ∃ es, cs = ds ++ es ∧ bytes es = rest := by
  induction ds generalizing cs with
  | nil => exact ⟨cs, rfl, h⟩
  | cons d ds ih =>
      have hFirst := hAscii d List.mem_cons_self
      cases cs with
      | nil =>
          rw [bytes_cons, utf8EncodeChar_ascii hFirst] at h
          cases h
      | cons c cs =>
          rw [bytes_cons, bytes_cons, List.append_assoc] at h
          obtain rfl := head_of_ascii hFirst h
          obtain ⟨es, rfl, hRest⟩ := ih (fun d hMem => hAscii d (List.mem_cons_of_mem _ hMem))
            (List.append_cancel_left h)
          exact ⟨es, rfl, hRest⟩

end Utf8

namespace Frame

open Utf8 (bytes encode_eq_bytes)

variable {line json front back : List UInt8} {b c : UInt8} {e : LogEntry}

theorem ascii_digits {width number : Nat} {d : Char} (h : d ∈ Hex.digits width number) :
    d.toNat < 128 := by
  obtain ⟨n, hSmall, rfl⟩ := exists_digit_of_mem h
  have hDigits : ∀ n < 16, (Hex.digit n).toNat < 128 := by decide
  exact hDigits n hSmall

/-- The checksum field of a line, behind which a space follows. -/
def field (sum : UInt32) : List UInt8 := bytes (Hex.digits 8 sum.toNat)

/-- A line that stands for an entry holds the checksum of the bytes behind it,
and these are the text of the entry. -/
theorem of_decode?_field {sum : UInt32} (h : decode? (field sum ++ 32 :: json) = some e) :
    Checksum.crc32 json = sum ∧
      ∃ text, Utf8.encode text = json ∧ LogEntry.parse? text = some e := by
  rw [decode?, Option.bind_eq_bind, Option.bind_eq_some_iff] at h
  obtain ⟨text, hText, hRest⟩ := h
  have hAscii : ∀ d ∈ Hex.digits 8 sum.toNat ++ [' '], d.toNat < 128 := by
    intro d hMem
    rcases List.mem_append.mp hMem with hDigit | hSpace
    · exact ascii_digits hDigit
    · rw [List.mem_singleton.mp hSpace]
      decide
  have hBytes : bytes text.toList = bytes (Hex.digits 8 sum.toNat ++ [' ']) ++ json := by
    rw [← encode_eq_bytes, Utf8.encode_of_decode? hText, Utf8.bytes_append, List.append_assoc]
    rfl
  obtain ⟨es, hList, rfl⟩ := Utf8.eq_append_of_bytes_eq hAscii hBytes
  have hDigits : ∀ d ∈ Hex.digits 8 sum.toNat, decide (d ≠ ' ') = true :=
    fun d hMem => decide_eq_true (mem_digits hMem).1
  rw [List.append_assoc] at hList
  rw [hList, List.dropWhile_append_of_pos hDigits, List.takeWhile_append_of_pos hDigits] at hRest
  obtain ⟨hSum, hEntry⟩ : (Checksum.crc32 (bytes es)).toNat = sum.toNat ∧
      LogEntry.parse? (String.ofList es) = some e := by
    simpa [readSum?_digits] using hRest
  exact ⟨UInt32.toNat.inj hSum, _, Utf8.encode_ofList es, hEntry⟩

theorem bytes_lineChars (text : String) :
    bytes (lineChars text) =
      field (Checksum.crc32 (Utf8.encode text)) ++ 32 :: Utf8.encode text := by
  rw [lineChars, Utf8.bytes_append]
  rfl

theorem length_field (sum : UInt32) : (field sum).length = 8 := by
  rw [field, Utf8.bytes_of_ascii fun _ => ascii_digits, List.length_map, Hex.length_digits]

/-- The text of an entry that breaks off stands for no entry. -/
theorem parse?_brokenOff {text : String} (hText : Utf8.encode e.render = Utf8.encode text ++ back)
    (hBack : back ≠ []) : LogEntry.parse? text = none := by
  have hRecord : ∃ members, e.toValue = .record members := by
    cases e <;> exact ⟨_, rfl⟩
  obtain ⟨members, hValue⟩ := hRecord
  have hPlain := e.plain_toValue
  rw [hValue] at hPlain
  rw [LogEntry.render, hValue, Json.Value.render, Utf8.encode_ofList] at hText
  rw [LogEntry.parse?, Json.parse, Json.parseBytes_brokenOff hPlain hText hBack, Option.bind_none]

/-- A checksum belongs to no bytes that differ from its own in one byte. -/
theorem decode?_otherByte (hOther : b ≠ c) :
    decode? (field (Checksum.crc32 (front ++ c :: back)) ++ 32 :: (front ++ b :: back)) = none := by
  rw [Option.eq_none_iff_forall_not_mem]
  intro found hFound
  exact hOther ((Checksum.crc32_byte_inj front back).mp (of_decode?_field hFound).1)

theorem decode?_brokenOff {sum : UInt32} (hText : Utf8.encode e.render = front ++ back)
    (hBack : back ≠ []) : decode? (field sum ++ 32 :: front) = none := by
  rw [Option.eq_none_iff_forall_not_mem]
  intro found hFound
  obtain ⟨-, text, rfl, hEntry⟩ := of_decode?_field hFound
  rw [parse?_brokenOff hText hBack] at hEntry
  cases hEntry

/-- Reading ends in front of a line that stands for no entry. -/
theorem readAll_refused (hLine : Feedless line) (hRefused : decode? line = none)
    (rest : List UInt8) : readAll (line ++ 10 :: rest) = ([], 0) := by
  rw [readAll, scan_line hLine, scan]
  simp [hRefused]

/-- Reading ends in front of a line with another byte in its JSON. -/
theorem readAll_otherByte (hText : Utf8.encode e.render = front ++ c :: back) (hOther : b ≠ c)
    (rest : List UInt8) :
    readAll (field (Checksum.crc32 (Utf8.encode e.render)) ++
      32 :: (front ++ b :: (back ++ 10 :: rest))) = ([], 0) := by
  have hLine := noFeed_lineChars e
  rw [bytes_lineChars, hText] at hLine
  rw [hText]
  generalize hField : field (Checksum.crc32 (front ++ c :: back)) = sum at hLine ⊢
  simp only [List.forall_mem_append, List.forall_mem_cons] at hLine
  obtain ⟨hSum, hSpace, hFront, -, hBack⟩ := hLine
  by_cases hFeed : b = 10
  · -- The line ends here, and what follows of the JSON begins a line of its own.
    subst hFeed
    have hFeedless : Feedless (sum ++ 32 :: front) := by
      simp only [Feedless, List.forall_mem_append, List.forall_mem_cons]
      exact ⟨hSum, hSpace, hFront⟩
    have hRefused := readAll_refused hFeedless
      (hField ▸ decode?_brokenOff hText (List.cons_ne_nil _ _)) (back ++ 10 :: rest)
    rwa [List.append_assoc, List.cons_append] at hRefused
  · have hFeedless : Feedless (sum ++ 32 :: (front ++ b :: back)) := by
      simp only [Feedless, List.forall_mem_append, List.forall_mem_cons]
      exact ⟨hSum, hSpace, hFront, hFeed, hBack⟩
    have hRefused := readAll_refused hFeedless (hField ▸ decode?_otherByte hOther) rest
    rwa [List.append_assoc, List.cons_append, List.append_assoc, List.cons_append] at hRefused

/-- Where the line at position `i` begins. -/
def lineStart (entries : List LogEntry) (i : Nat) : Nat := (encodeAll (entries.take i)).length

/-- Where the JSON in the line at position `i` begins, behind eight digits and a
space. -/
def jsonStart (entries : List LogEntry) (i : Nat) : Nat := lineStart entries i + 9

theorem eq_take_cons_drop {α : Type} {xs : List α} {i : Nat} {x : α} (h : xs[i]? = some x) :
    xs = xs.take i ++ x :: xs.drop (i + 1) := by
  obtain ⟨hShort, rfl⟩ := List.getElem?_eq_some_iff.mp h
  rw [List.getElem_cons_drop, List.take_append_drop]

/-- The lines of entries, split at a byte of the JSON in the line at position `i`. -/
theorem encodeAll_split {entries : List LogEntry} {i : Nat} (hEntry : entries[i]? = some e)
    (hText : Utf8.encode e.render = front ++ c :: back) :
    encodeAll entries = encodeAll (entries.take i) ++
      (field (Checksum.crc32 (Utf8.encode e.render)) ++ 32 :: front) ++
        c :: (back ++ 10 :: encodeAll (entries.drop (i + 1))) := by
  have hLines : encodeAll entries =
      encodeAll (entries.take i) ++ (encode e ++ encodeAll (entries.drop (i + 1))) :=
    (congrArg encodeAll (eq_take_cons_drop hEntry)).trans List.flatMap_append
  rw [hLines, encode, encodeText_eq, bytes_lineChars, hText]
  simp only [List.append_assoc, List.cons_append, List.nil_append]

/-- A byte of the JSON of a line may become any other byte: the entries before
this line are read and nothing behind them, and their lines end where this line
begins. -/
theorem readAll_set_jsonByte {entries : List LogEntry} {i k : Nat} {e : LogEntry} {b c : UInt8}
    (hEntry : entries[i]? = some e) (hByte : (Utf8.encode e.render)[k]? = some c)
    (hOther : b ≠ c) :
    (encodeAll entries)[jsonStart entries i + k]? = some c ∧
      readAll ((encodeAll entries).set (jsonStart entries i + k) b) =
        (entries.take i, lineStart entries i) := by
  have hText := eq_take_cons_drop hByte
  have hShort : k < (Utf8.encode e.render).length := (List.getElem?_eq_some_iff.mp hByte).1
  generalize hFront : (Utf8.encode e.render).take k = front at hText
  have hAt : (encodeAll (entries.take i) ++
      (field (Checksum.crc32 (Utf8.encode e.render)) ++ 32 :: front)).length =
        jsonStart entries i + k := by
    rw [List.length_append, List.length_append, List.length_cons, length_field, ← hFront,
      List.length_take_of_le (Nat.le_of_lt hShort), jsonStart, lineStart]
    omega
  rw [encodeAll_split hEntry hText, ← hAt]
  refine ⟨by rw [List.getElem?_append_right (Nat.le_refl _), Nat.sub_self]; rfl, ?_⟩
  rw [List.set_append_right _ _ (Nat.le_refl _), Nat.sub_self, List.set_cons_zero,
    List.append_assoc, readAll_append, List.append_assoc, List.cons_append,
    readAll_otherByte hText hOther, List.append_nil, Nat.add_zero, lineStart]

/-- A line feed in the place of the last byte of the second line. -/
theorem readAll_brokenOff_checkpoint :
    [LogEntry.checkpoint 1, .checkpoint 2][1]? = some (.checkpoint 2) ∧
      (Utf8.encode (LogEntry.checkpoint 2).render)[30]? = some 125 ∧ (10 : UInt8) ≠ 125 ∧
      (encodeAll [LogEntry.checkpoint 1, .checkpoint 2])[
        jsonStart [.checkpoint 1, .checkpoint 2] 1 + 30]? = some 125 ∧
      readAll ((encodeAll [.checkpoint 1, .checkpoint 2]).set
        (jsonStart [.checkpoint 1, .checkpoint 2] 1 + 30) 10) =
          ([.checkpoint 1], lineStart [.checkpoint 1, .checkpoint 2] 1) := by
  have hByte : (Utf8.encode (LogEntry.checkpoint 2).render)[30]? = some 125 := by decide +kernel
  exact ⟨rfl, hByte, by decide, readAll_set_jsonByte rfl hByte (by decide)⟩

end Frame

end TierTree
