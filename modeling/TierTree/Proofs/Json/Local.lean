import TierTree.Proofs.Json.RoundTrip

/-!
Reading looks no further than it has to. What was read of some bytes is read
again when more bytes follow, except for a number at the very end, which may go
on. So no text of an object becomes the text of a value by breaking off.
-/

namespace TierTree.Json

open Utf8

variable {α : Type} {bytes rest : List UInt8} {b : UInt8}

/-- A reader that reads the same when more bytes follow. -/
def Closed (read : List UInt8 → Option (α × List UInt8)) : Prop :=
  ∀ {bytes rest : List UInt8} {a : α}, read bytes = some (a, rest) →
    ∀ more, read (bytes ++ more) = some (a, rest ++ more)

/-- A reader that reads the same when more bytes follow, as long as it has left
some of the bytes. -/
def Local (read : List UInt8 → Option (α × List UInt8)) : Prop :=
  ∀ {bytes rest : List UInt8} {b : UInt8} {a : α}, read bytes = some (a, b :: rest) →
    ∀ more, read (bytes ++ more) = some (a, b :: (rest ++ more))

theorem skipGaps_append (h : skipGaps bytes = b :: rest) (more : List UInt8) :
    skipGaps (bytes ++ more) = b :: (rest ++ more) := by
  rw [skipGaps] at h ⊢
  rw [List.dropWhile_append, h]
  rfl

section Numbers

theorem dropWhile_isDigit_append (h : bytes.dropWhile isDigit = b :: rest) (more : List UInt8) :
    (bytes ++ more).dropWhile isDigit = b :: (rest ++ more) := by
  rw [List.dropWhile_append, h]
  rfl

theorem digitChars_append (h : bytes.dropWhile isDigit = b :: rest) (more : List UInt8) :
    digitChars (bytes ++ more) = digitChars bytes := by
  have hShort : (bytes.takeWhile isDigit).length ≠ bytes.length := by
    have hSplit := congrArg List.length
      (List.takeWhile_append_dropWhile (p := isDigit) (l := bytes))
    rw [h, List.length_append, List.length_cons] at hSplit
    omega
  rw [digitChars, List.takeWhile_append, if_neg hShort, digitChars]

theorem local_readWhole : Local readWhole := by
  intro bytes rest b ds h more
  unfold readWhole at h ⊢
  cases hEnd : bytes.dropWhile isDigit with
  | nil =>
      rw [hEnd] at h
      split at h <;> cases h
  | cons c tail =>
      rw [digitChars_append hEnd, dropWhile_isDigit_append hEnd]
      rw [hEnd] at h
      split at h <;> cases h <;> rfl

theorem local_readFraction : Local readFraction := by
  intro bytes rest b ds h more
  unfold readFraction at h
  split at h
  next digits =>
    rw [List.cons_append, readFraction]
    cases hEnd : digits.dropWhile isDigit with
    | nil =>
        rw [hEnd] at h
        split at h <;> cases h
    | cons c tail =>
        rw [digitChars_append hEnd, dropWhile_isDigit_append hEnd]
        rw [hEnd] at h
        split at h <;> cases h
        rfl
  next hPoint =>
    cases h
    rw [List.cons_append, readFraction]
    intro digits hEq
    exact hPoint _ (by rw [(List.cons.inj hEq).1])

theorem local_readPower : Local readPower := by
  intro bytes rest b power h more
  unfold readPower at h ⊢
  cases hEnd : bytes.dropWhile isDigit with
  | nil =>
      rw [hEnd] at h
      split at h <;> cases h
  | cons c tail =>
      rw [digitChars_append hEnd, dropWhile_isDigit_append hEnd]
      rw [hEnd] at h
      split at h <;> cases h
      rfl

theorem readExponent_unmarked {first : UInt8} (h : ¬ (first = 69 ∨ first = 101)) :
    readExponent (first :: rest) = some (none, first :: rest) := by
  simp [readExponent, h]

theorem readExponent_unsigned {mark sign : UInt8} (hMark : mark = 69 ∨ mark = 101)
    (hPlus : sign ≠ 43) (hMinus : sign ≠ 45) :
    readExponent (mark :: sign :: rest) =
      (readPower (sign :: rest)).map fun r => (some (r.1 : Int), r.2) := by
  simp [readExponent, hMark, hPlus, hMinus]

/-- An exponent ends before the first byte that is no digit. -/
theorem local_readExponent : Local readExponent := by
  intro bytes rest b exponent h more
  have hPower (signed : Nat → Option Int) {digits : List UInt8}
      (hRead : (readPower digits).map (fun r => (signed r.1, r.2)) =
        some (exponent, b :: rest)) :
      (readPower (digits ++ more)).map (fun r => (signed r.1, r.2)) =
        some (exponent, b :: (rest ++ more)) := by
    obtain ⟨⟨power, tail⟩, hFound, hSame⟩ := Option.map_eq_some_iff.mp hRead
    cases hSame
    rw [local_readPower hFound]
    rfl
  cases bytes with
  | nil => cases h
  | cons mark digits =>
      rw [List.cons_append]
      by_cases hMark : mark = 69 ∨ mark = 101
      · cases digits with
        | nil => simp [readExponent, hMark, readPower, digitChars] at h
        | cons sign digits =>
            rw [List.cons_append]
            by_cases hPlus : sign = 43
            · subst hPlus
              simp only [readExponent, if_pos hMark] at h ⊢
              exact hPower (fun n => some (n : Int)) h
            by_cases hMinus : sign = 45
            · subst hMinus
              simp only [readExponent, if_pos hMark] at h ⊢
              exact hPower (fun n => some (-(n : Int))) h
            · rw [readExponent_unsigned hMark hPlus hMinus] at h ⊢
              exact hPower (fun n => some (n : Int)) h
      · rw [readExponent_unmarked hMark] at h ⊢
        cases h
        rfl

/-- The parts of a number are read one after another, and each of them but the
last leaves the next one some bytes. -/
theorem local_readNumeral : Local readNumeral := by
  intro bytes rest b numeral h more
  simp only [readNumeral, Option.bind_eq_bind, Option.bind_eq_some_iff, Prod.exists,
    Option.pure_def, Option.some.injEq, Prod.mk.injEq] at h
  obtain ⟨whole, afterWhole, hWhole, fraction, afterFraction, hFraction, exponent, left,
    hExponent, rfl, rfl⟩ := h
  cases afterFraction with
  | nil => cases hExponent
  | cons second afterFraction =>
  cases afterWhole with
  | nil => cases hFraction
  | cons third afterWhole =>
  cases bytes with
  | nil => cases hWhole
  | cons first digits =>
      have hLonger : readWhole (if (first :: (digits ++ more)).head? = some 45 then
          (first :: (digits ++ more)).drop 1 else first :: (digits ++ more)) =
            some (whole, third :: (afterWhole ++ more)) := by
        have hSame := local_readWhole hWhole more
        by_cases hMinus : first = 45 <;> simpa [hMinus] using hSame
      have hMiddle := local_readFraction hFraction more
      have hLast := local_readExponent hExponent more
      rw [List.cons_append] at hMiddle hLast ⊢
      simp only [readNumeral, hLonger, hMiddle, hLast, Option.bind_eq_bind, Option.bind_some]
      rfl

end Numbers

section Strings

/-- A string ends with its closing quote, whatever follows. -/
theorem closed_readPieces : Closed readPieces := by
  intro bytes
  fun_induction readPieces bytes with
  | case1 | case3 | case5 | case7 => intro rest ps h; cases h
  | case2 =>
      intro rest ps h more
      cases h
      rfl
  | case4 a b c d tail u hUnit ih =>
      intro rest ps h more
      obtain ⟨⟨qs, left⟩, hRead, hSame⟩ := Option.map_eq_some_iff.mp h
      cases hSame
      simp [readPieces, hUnit, ih hRead more]
  | case6 letter tail _ b hEscape ih =>
      intro rest ps h more
      obtain ⟨⟨qs, left⟩, hRead, hSame⟩ := Option.map_eq_some_iff.mp h
      cases hSame
      have hShort : letter ≠ 117 := by
        rintro rfl
        cases hEscape
      simp [readPieces, hShort, hEscape, ih hRead more]
  | case8 b tail hQuote _ hEscape hControl ih =>
      intro rest ps h more
      obtain ⟨⟨qs, left⟩, hRead, hSame⟩ := Option.map_eq_some_iff.mp h
      cases hSame
      have hPlain : IsPlain b := by
        refine ⟨hQuote, fun hMark => ?_, ?_⟩
        · cases tail with
          | nil => cases hRead
          | cons e tail => exact hEscape e tail hMark rfl
        · rw [UInt8.lt_iff_toNat_lt] at hControl
          exact Nat.not_lt.mp hControl
      rw [List.cons_append, readPieces_plain hPlain, ih hRead more]
      rfl

theorem closed_readString : Closed readString := by
  intro bytes rest text h more
  obtain ⟨⟨ps, left⟩, hRead, hSame⟩ := Option.map_eq_some_iff.mp h
  cases hSame
  rw [readString, closed_readPieces hRead more]
  rfl

end Strings

section Values
variable {fuel : Nat} {v : Value}

/-- A value that is not a number up to the last byte. -/
def Ends (v : Value) (rest : List UInt8) : Prop := ∀ n, v = .number n → rest ≠ []

theorem ends_of_skipGaps {left tail : List UInt8} (h : skipGaps left = b :: tail) :
    Ends v left := by
  rintro _ _ rfl
  cases h

/-- What is read with some fuel is read with more fuel and more bytes as well. -/
structure Extends (fuel : Nat) : Prop where
  value : ∀ {bytes rest : List UInt8} {v : Value}, readValue fuel bytes = some (v, rest) →
    Ends v rest → ∀ extra more, readValue (fuel + extra) (bytes ++ more) = some (v, rest ++ more)
  items : ∀ {bytes rest : List UInt8} {items : List Value},
    readItems fuel bytes = some (items, rest) →
      ∀ extra more, readItems (fuel + extra) (bytes ++ more) = some (items, rest ++ more)
  members : ∀ {bytes rest : List UInt8} {members : List (Option String × Value)},
    readMembers fuel bytes = some (members, rest) →
      ∀ extra more, readMembers (fuel + extra) (bytes ++ more) = some (members, rest ++ more)

theorem Extends.items_succ (h : Extends fuel) {items : List Value}
    (hRead : readItems (fuel + 1) bytes = some (items, rest)) (extra : Nat) (more : List UInt8) :
    readItems (fuel + 1 + extra) (bytes ++ more) = some (items, rest ++ more) := by
  rw [readItems] at hRead
  obtain ⟨⟨v, left⟩, hValue, hRest⟩ := Option.bind_eq_some_iff.mp hRead
  rw [Nat.add_right_comm, readItems]
  simp only at hRest
  split at hRest
  next tail hGaps =>
    obtain ⟨⟨others, last⟩, hItems, hSame⟩ := Option.map_eq_some_iff.mp hRest
    cases hSame
    simp [h.value hValue (ends_of_skipGaps hGaps), skipGaps_append hGaps, h.items hItems]
  next tail hGaps =>
    cases hRest
    simp [h.value hValue (ends_of_skipGaps hGaps), skipGaps_append hGaps]
  next => cases hRest

theorem Extends.members_succ (h : Extends fuel) {members : List (Option String × Value)}
    (hRead : readMembers (fuel + 1) bytes = some (members, rest)) (extra : Nat)
    (more : List UInt8) :
    readMembers (fuel + 1 + extra) (bytes ++ more) = some (members, rest ++ more) := by
  rw [readMembers] at hRead
  rw [Nat.add_right_comm, readMembers]
  split at hRead
  next quoted hQuote =>
    obtain ⟨⟨key, behind⟩, hKey, hRest⟩ := Option.bind_eq_some_iff.mp hRead
    simp only at hRest
    split at hRest
    next colon hColon =>
      obtain ⟨⟨v, left⟩, hValue, hRest⟩ := Option.bind_eq_some_iff.mp hRest
      simp only at hRest
      split at hRest
      next tail hGaps =>
        obtain ⟨⟨others, last⟩, hMembers, hSame⟩ := Option.map_eq_some_iff.mp hRest
        cases hSame
        simp [skipGaps_append hQuote, closed_readString hKey, skipGaps_append hColon,
          h.value hValue (ends_of_skipGaps hGaps), skipGaps_append hGaps, h.members hMembers]
      next tail hGaps =>
        cases hRest
        simp [skipGaps_append hQuote, closed_readString hKey, skipGaps_append hColon,
          h.value hValue (ends_of_skipGaps hGaps), skipGaps_append hGaps]
      next => cases hRest
    next => cases hRest
  next => cases hRead

theorem readItems_nil (fuel : Nat) : readItems fuel [] = none := by
  cases fuel with
  | zero => rfl
  | succ fuel => cases fuel <;> rfl

theorem readMembers_nil (fuel : Nat) : readMembers fuel [] = none := by
  cases fuel <;> rfl

/-- A number begins with a minus sign or a digit. -/
theorem head_of_readNumeral {numeral : Numeral} (h : readNumeral bytes = some (numeral, rest)) :
    ∃ b tail, bytes = b :: tail ∧ (b = 45 ∨ isDigit b = true) := by
  cases bytes with
  | nil => cases h
  | cons b tail =>
      refine ⟨b, tail, rfl, Decidable.byContradiction fun hOther => ?_⟩
      obtain ⟨hPositive, hDigit⟩ := not_or.mp hOther
      simp [readNumeral, readWhole, digitChars, hPositive, hDigit] at h

theorem Extends.array_succ (h : Extends fuel) {tail : List UInt8}
    (hGaps : skipGaps bytes = 91 :: tail)
    (hRead : readValue (fuel + 1) bytes = some (v, rest)) (extra : Nat) (more : List UInt8) :
    readValue (fuel + 1 + extra) (bytes ++ more) = some (v, rest ++ more) := by
  rw [Nat.add_right_comm]
  have hLonger := skipGaps_append hGaps more
  cases hInside : skipGaps tail with
  | nil => simp [readValue, hGaps, hInside, readItems_nil] at hRead
  | cons b inside =>
      have hFurther := skipGaps_append hInside more
      by_cases hClose : b = 93
      · subst hClose
        simp only [readValue, hGaps, hInside] at hRead
        cases hRead
        simp only [readValue, hLonger, hFurther]
      · rw [readValue_items hGaps hInside hClose] at hRead
        obtain ⟨⟨items, left⟩, hItems, hSame⟩ := Option.map_eq_some_iff.mp hRead
        cases hSame
        rw [readValue_items hLonger hFurther hClose, ← List.cons_append, h.items hItems]
        rfl

theorem Extends.object_succ (h : Extends fuel) {tail : List UInt8}
    (hGaps : skipGaps bytes = 123 :: tail)
    (hRead : readValue (fuel + 1) bytes = some (v, rest)) (extra : Nat) (more : List UInt8) :
    readValue (fuel + 1 + extra) (bytes ++ more) = some (v, rest ++ more) := by
  rw [Nat.add_right_comm]
  have hLonger := skipGaps_append hGaps more
  cases hInside : skipGaps tail with
  | nil => simp [readValue, hGaps, hInside, readMembers_nil] at hRead
  | cons b inside =>
      have hFurther := skipGaps_append hInside more
      by_cases hClose : b = 125
      · subst hClose
        simp only [readValue, hGaps, hInside] at hRead
        cases hRead
        simp only [readValue, hLonger, hFurther]
      · rw [readValue_members hGaps hInside hClose] at hRead
        obtain ⟨⟨members, left⟩, hMembers, hSame⟩ := Option.map_eq_some_iff.mp hRead
        cases hSame
        rw [readValue_members hLonger hFurther hClose, ← List.cons_append, h.members hMembers]
        rfl

/-- One step further down, a value is read the same whatever follows it, unless it is
a number at the end of the bytes. -/
theorem Extends.value_succ (h : Extends fuel)
    (hRead : readValue (fuel + 1) bytes = some (v, rest)) (hEnds : Ends v rest) (extra : Nat)
    (more : List UInt8) :
    readValue (fuel + 1 + extra) (bytes ++ more) = some (v, rest ++ more) := by
  have hWhole := hRead
  rw [readValue] at hRead
  split at hRead
  next hGaps =>
    cases hRead
    rw [Nat.add_right_comm, readValue, skipGaps_append hGaps]
    rfl
  next hGaps =>
    cases hRead
    rw [Nat.add_right_comm, readValue, skipGaps_append hGaps]
    rfl
  next hGaps =>
    cases hRead
    rw [Nat.add_right_comm, readValue, skipGaps_append hGaps]
    rfl
  next hGaps =>
    obtain ⟨⟨text, left⟩, hString, hSame⟩ := Option.map_eq_some_iff.mp hRead
    cases hSame
    simp [Nat.add_right_comm, readValue, skipGaps_append hGaps, closed_readString hString]
  next hGaps => exact h.array_succ hGaps hWhole extra more
  next hGaps => exact h.object_succ hGaps hWhole extra more
  next =>
    obtain ⟨⟨numeral, left⟩, hNumeral, hSame⟩ := Option.map_eq_some_iff.mp hRead
    cases hSame
    obtain ⟨b, tail, hGaps, hFirst⟩ := head_of_readNumeral hNumeral
    obtain ⟨c, others, rfl⟩ := List.exists_cons_of_ne_nil (hEnds numeral rfl)
    rw [hGaps] at hNumeral
    rw [Nat.add_right_comm, readValue_number (skipGaps_append hGaps more) hFirst,
      ← List.cons_append, local_readNumeral hNumeral]
    rfl

theorem extends_all (fuel : Nat) : Extends fuel := by
  induction fuel with
  | zero =>
      refine ⟨?_, ?_, ?_⟩
      · intro _ _ _ hRead
        cases hRead
      · intro _ _ _ hRead
        cases hRead
      · intro _ _ _ hRead
        cases hRead
  | succ fuel ih => exact ⟨ih.value_succ, ih.items_succ, ih.members_succ⟩

theorem isObject_of_readValue {tail : List UInt8} (hGaps : skipGaps bytes = 123 :: tail)
    (hRead : readValue fuel bytes = some (v, rest)) : ∃ members, v = .object members := by
  cases fuel with
  | zero => cases hRead
  | succ fuel =>
      rw [readValue, hGaps] at hRead
      simp only at hRead
      split at hRead
      · cases hRead
        exact ⟨_, rfl⟩
      · obtain ⟨r, -, hSame⟩ := Option.map_eq_some_iff.mp hRead
        cases hSame
        exact ⟨_, rfl⟩

end Values

/-- The text of an object that breaks off is the text of no value. -/
theorem parseBytes_brokenOff {members : List (String × Value)} {front back : List UInt8}
    (hPlain : (Value.record members).Plain)
    (hBytes : Utf8.bytes (Value.record members).chars = front ++ back) (hBack : back ≠ []) :
    parseBytes front = none := by
  rw [Option.eq_none_iff_forall_not_mem]
  intro v hParsed
  obtain ⟨⟨w, rest⟩, hRead, -⟩ := Option.bind_eq_some_iff.mp hParsed
  have hEnds : Ends w rest := by
    cases front with
    | nil => cases hRead
    | cons b front =>
        rw [Value.record, bytes_object, List.cons_append] at hBytes
        obtain ⟨rfl, -⟩ := List.cons.inj hBytes
        obtain ⟨found, rfl⟩ := isObject_of_readValue (skipGaps_of_opens (by decide)) hRead
        exact fun _ hNumber => by cases hNumber
  have hOn := (extends_all _).value hRead hEnds (2 * back.length) back
  have hWhole := hPlain.readsBack (2 * front.length + 1 + 2 * back.length) []
    (by rw [hBytes, List.length_append]; omega) fun _ hMem => by cases hMem
  rw [List.append_nil, hBytes, hOn] at hWhole
  exact hBack (List.append_eq_nil_iff.mp (congrArg Prod.snd (Option.some.inj hWhole))).2

end TierTree.Json
