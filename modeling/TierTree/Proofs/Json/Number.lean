import TierTree.Proofs.Json.Text

/-!
Counts of a JSON text. The digits of a count are read back as that count when
nothing follows that would go on with the number, and no count of 64 bits is
too large to be taken in.
-/

namespace TierTree.Json

open Utf8

theorem toNat_of_isDigit {c : Char} (h : c.isDigit = true) : 48 ≤ c.toNat ∧ c.toNat ≤ 57 := by
  simp only [Char.isDigit, Bool.and_eq_true, decide_eq_true_eq, ge_iff_le,
    UInt32.le_iff_toNat_le] at h
  exact h

theorem isDigit_ofNat {c : Char} (h : c.isDigit = true) :
    isDigit (UInt8.ofNat c.toNat) = true := by
  obtain ⟨hLow, hHigh⟩ := toNat_of_isDigit h
  simp only [isDigit, Bool.and_eq_true, decide_eq_true_eq, UInt8.le_iff_toNat_le,
    UInt8.toNat_ofNat', UInt8.reduceToNat]
  omega

/-- The bytes of digits, each a byte of its own. -/
theorem bytes_digits {ds : List Char} (h : ∀ c ∈ ds, c.isDigit = true) :
    bytes ds = ds.map fun c => UInt8.ofNat c.toNat :=
  bytes_of_ascii fun c hMem => Nat.lt_of_le_of_lt (toNat_of_isDigit (h c hMem)).2 (by decide)

/-- Bytes that do not go on with digits. -/
def StopsDigits (tail : List UInt8) : Prop := ∀ b ∈ tail.head?, isDigit b = false

theorem takeWhile_digits {bs tail : List UInt8} (h : ∀ b ∈ bs, isDigit b = true)
    (hTail : StopsDigits tail) : (bs ++ tail).takeWhile isDigit = bs := by
  rw [List.takeWhile_append_of_pos h]
  cases tail with
  | nil => simp
  | cons b rest => simp [hTail b rfl]

theorem dropWhile_digits {bs tail : List UInt8} (h : ∀ b ∈ bs, isDigit b = true)
    (hTail : StopsDigits tail) : (bs ++ tail).dropWhile isDigit = tail := by
  rw [List.dropWhile_append_of_pos h]
  cases tail with
  | nil => simp
  | cons b rest => simp [hTail b rfl]

theorem digit_bytes {ds : List Char} (h : ∀ c ∈ ds, c.isDigit = true) :
    ∀ b ∈ bytes ds, isDigit b = true := by
  intro b hMem
  rw [bytes_digits h] at hMem
  obtain ⟨c, hc, rfl⟩ := List.mem_map.mp hMem
  exact isDigit_ofNat (h c hc)

theorem digitChars_bytes {ds : List Char} (h : ∀ c ∈ ds, c.isDigit = true)
    {tail : List UInt8} (hTail : StopsDigits tail) : digitChars (bytes ds ++ tail) = ds := by
  rw [digitChars, takeWhile_digits (digit_bytes h) hTail, bytes_digits h, List.map_map]
  refine (List.map_congr_left fun c hc => ?_).trans (List.map_id ds)
  have hSmall : c.toNat < 256 := Nat.lt_of_le_of_lt (toNat_of_isDigit (h c hc)).2 (by decide)
  simp only [Function.comp_apply, UInt8.toNat_ofNat', Nat.mod_eq_of_lt hSmall, Char.ofNat_toNat,
    id_eq]

/-- The digits of a count start with a zero only where they are that zero. -/
theorem toDigits_cases (n : Nat) :
    Nat.toDigits 10 n = ['0'] ∨ ∃ d ds, Nat.toDigits 10 n = d :: ds ∧ d ≠ '0' := by
  induction n using Nat.strongRecOn with
  | _ n ih =>
      by_cases hSmall : n < 10
      · rw [Nat.toDigits_of_lt_base hSmall]
        by_cases hZero : n = 0
        · exact .inl (by rw [hZero]; rfl)
        · exact .inr ⟨_, _, rfl, by rwa [ne_eq, Nat.digitChar_eq_zero]⟩
      · right
        rw [Nat.toDigits_of_base_le (by decide) (by omega)]
        rcases ih (n / 10) (by omega) with hZero | ⟨d, ds, hDigits, hFirst⟩
        · have hValue := congrArg (Nat.ofDigitChars 10 · 0) hZero
          simp only [Nat.ofDigitChars_toDigits (by decide : 1 < 10) (by decide : 10 ≤ 10)] at hValue
          have : n / 10 = 0 := hValue
          omega
        · exact ⟨d, ds ++ [(n % 10).digitChar], by rw [hDigits, List.cons_append], hFirst⟩

theorem isDigit_toDigits {n : Nat} : ∀ c ∈ Nat.toDigits 10 n, c.isDigit = true :=
  fun _ hMem => Nat.isDigit_of_mem_toDigits (by decide) (by decide) hMem

theorem readWhole_toDigits (n : Nat) {tail : List UInt8} (hTail : StopsDigits tail) :
    readWhole (bytes (Nat.toDigits 10 n) ++ tail) = some (Nat.toDigits 10 n, tail) := by
  rw [readWhole, digitChars_bytes isDigit_toDigits hTail,
    dropWhile_digits (digit_bytes isDigit_toDigits) hTail]
  rcases toDigits_cases n with hZero | ⟨d, ds, hDigits, hFirst⟩
  · rw [hZero]
    rfl
  · rw [hDigits]
    simp [hFirst]

/-- Bytes that do not go on with a number: no digit, no point and no exponent. -/
def StopsNumber (tail : List UInt8) : Prop :=
  ∀ b ∈ tail.head?, isDigit b = false ∧ b ≠ 46 ∧ b ≠ 69 ∧ b ≠ 101

theorem StopsNumber.stopsDigits {tail : List UInt8} (h : StopsNumber tail) : StopsDigits tail :=
  fun b hMem => (h b hMem).1

theorem readFraction_of_stops {tail : List UInt8} (h : StopsNumber tail) :
    readFraction tail = some ([], tail) := by
  cases tail with
  | nil => rfl
  | cons b rest => simp [readFraction, (h b rfl).2.1]

theorem readExponent_of_stops {tail : List UInt8} (h : StopsNumber tail) :
    readExponent tail = some (none, tail) := by
  cases tail with
  | nil => rfl
  | cons b rest => simp [readExponent, (h b rfl).2.2]

/-- The first byte of a count is a digit. -/
theorem head_toDigits (n : Nat) :
    ∃ b rest, bytes (Nat.toDigits 10 n) = b :: rest ∧ isDigit b = true := by
  have hBytes := digit_bytes (isDigit_toDigits (n := n))
  cases h : bytes (Nat.toDigits 10 n) with
  | nil =>
      rw [bytes_digits isDigit_toDigits, List.map_eq_nil_iff] at h
      exact absurd h Nat.toDigits_ne_nil
  | cons b rest => exact ⟨b, rest, rfl, hBytes b (by rw [h]; exact List.mem_cons_self)⟩

theorem chars_ofNat (n : Nat) : (Numeral.ofNat n).chars = Nat.toDigits 10 n := by
  simp [Numeral.ofNat, Numeral.chars]

/-- A count is read back from its digits. -/
theorem readNumeral_ofNat (n : Nat) {tail : List UInt8} (h : StopsNumber tail) :
    readNumeral (bytes (Nat.toDigits 10 n) ++ tail) = some (.ofNat n, tail) := by
  have hPositive : (bytes (Nat.toDigits 10 n) ++ tail).head? ≠ some 45 := by
    obtain ⟨b, rest, hBytes, hDigit⟩ := head_toDigits n
    rw [hBytes, List.cons_append, List.head?_cons, ne_eq, Option.some.injEq]
    rintro rfl
    cases hDigit
  simp only [readNumeral, hPositive, decide_false, if_false, readWhole_toDigits n h.stopsDigits,
    readFraction_of_stops h, readExponent_of_stops h, Option.bind_eq_bind, Option.bind_some,
    Option.pure_def, Numeral.ofNat]

section Overflow

theorem le_ofDigitChars (cs : List Char) (start : Nat) :
    start ≤ Nat.ofDigitChars 10 cs start := by
  induction cs generalizing start with
  | nil => simp
  | cons c rest ih =>
      rw [Nat.ofDigitChars_cons]
      exact Nat.le_trans (by omega) (ih _)

/-- Digits of a 64-bit number are all taken. -/
theorem takeDigits_of_lt {cs : List Char} {start : Nat}
    (h : Nat.ofDigitChars 10 cs start < UInt64.size) :
    Numeral.takeDigits start cs = (Nat.ofDigitChars 10 cs start, 0) := by
  induction cs generalizing start with
  | nil => rfl
  | cons c rest ih =>
      have hSplit : Nat.ofDigitChars 10 (c :: rest) start =
          Nat.ofDigitChars 10 rest (Nat.ofDigitChars 10 [c] start) := by
        rw [Nat.ofDigitChars_cons, Nat.ofDigitChars_cons, Nat.ofDigitChars_nil]
      rw [hSplit] at h ⊢
      rw [Numeral.takeDigits, if_pos (Nat.lt_of_le_of_lt (le_ofDigitChars rest _) h), ih h]

theorem roundToDouble_le (n : Nat) : Numeral.roundToDouble n ≤ 2 * n := by
  unfold Numeral.roundToDouble
  split
  · omega
  next hLarge =>
    have hPos : n ≠ 0 := by
      rintro rfl
      exact hLarge (by decide)
    have hKept : n >>> (n.log2 - 52) <<< (n.log2 - 52) ≤ n := by
      rw [Nat.shiftRight_eq_div_pow, Nat.shiftLeft_eq]
      exact Nat.div_mul_le_self _ _
    have hUnit : 2 ^ (n.log2 - 52) ≤ n :=
      Nat.le_trans (Nat.pow_le_pow_right (by decide) (Nat.sub_le _ _)) (Nat.log2_self_le hPos)
    simp only
    split
    · rw [Nat.shiftLeft_eq, Nat.add_mul, Nat.one_mul, ← Nat.shiftLeft_eq]
      omega
    · omega

/-- A count of 64 bits is not too large to be taken in. -/
theorem overflows_ofNat {n : Nat} (h : n < UInt64.size) : (Numeral.ofNat n).overflows = false := by
  have hDigits : Nat.ofDigitChars 10 (Nat.toDigits 10 n) 0 = n :=
    Nat.ofDigitChars_toDigits (by decide) (by decide)
  have hTaken : Numeral.takeDigits 0 (Nat.toDigits 10 n) = (n, 0) := by
    rw [takeDigits_of_lt (by rwa [hDigits]), hDigits]
  have hFits : Numeral.roundToDouble (Numeral.roundToDouble n * 1) < 2 ^ 66 := by
    have hSelf := roundToDouble_le n
    have hProduct := roundToDouble_le (Numeral.roundToDouble n * 1)
    have hWord : n < 2 ^ 64 := h
    omega
  have hLarge {m : Nat} (h : 66 ≤ m) : 2 ^ 66 ≤ 1 <<< m := by
    rw [Nat.one_shiftLeft]
    exact Nat.pow_le_pow_right (by decide) h
  simp only [Numeral.overflows, Numeral.ofNat, hTaken, Numeral.takeDigits, List.length_nil,
    Nat.sub_self, Option.getD_none, decide_eq_false_iff_not, not_and, not_or, Nat.not_le]
  exact fun _ _ => ⟨by decide, Nat.lt_of_lt_of_le hFits (@hLarge 1024 (by decide))⟩

end Overflow

end TierTree.Json
