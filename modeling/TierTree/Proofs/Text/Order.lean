import Mathlib.Data.String.Basic
import TierTree.Proofs.Json.Text

/-!
The order of texts. UTF-8 writes the number of a character from its highest
digits down, and a longer form begins with a higher byte. So it keeps the order
of characters, and texts in ascending order are in ascending order byte by byte.
-/

namespace TierTree.Utf8

/-- A number as a first byte that carries `mark`, and `count` bytes of six bits
behind it. -/
def units (mark : Nat) : Nat → Nat → List UInt8
  | 0, v => [UInt8.ofNat (v + mark)]
  | count + 1, v => units mark count (v / 64) ++ [UInt8.ofNat (v % 64 + 128)]

/-- The mark of the first byte of a character and the number of bytes behind
it. -/
def form (v : Nat) : Nat × Nat :=
  if v ≤ 127 then (0, 0)
  else if v ≤ 2047 then (192, 1)
  else if v ≤ 65535 then (224, 2)
  else (240, 3)

/-- The first byte of a character, as a number. -/
def lead (v : Nat) : Nat := v / 64 ^ (form v).2 + (form v).1

theorem val_lt (c : Char) : c.val.toNat < 1114112 := by
  rcases c.valid with hLow | ⟨_, hHigh⟩
  · exact Nat.lt_trans hLow (by decide)
  · exact hHigh

theorem utf8EncodeChar_eq_units (c : Char) :
    String.utf8EncodeChar c = units (form c.val.toNat).1 (form c.val.toNat).2 c.val.toNat := by
  have hValid := val_lt c
  unfold String.utf8EncodeChar form
  generalize c.val.toNat = v at hValid
  simp only
  split
  · rfl
  next hOne =>
    split
    next hTwo =>
      have hTop : v / 64 % 32 = v / 64 := Nat.mod_eq_of_lt (by omega)
      simp [units, hTop]
    next hTwo =>
      split
      next hThree =>
        have hTop : v / 4096 % 16 = v / 64 / 64 := by omega
        simp [units, hTop]
      next hThree =>
        have hTop : v / 262144 % 8 = v / 64 / 64 / 64 := by omega
        have hNext : v / 4096 % 64 = v / 64 / 64 % 64 := by omega
        simp [units, hTop, hNext]

theorem units_eq_cons (mark count v : Nat) :
    ∃ rest, units mark count v = UInt8.ofNat (v / 64 ^ count + mark) :: rest := by
  induction count generalizing v with
  | zero => exact ⟨[], by simp [units]⟩
  | succ count ih =>
      obtain ⟨rest, hUnits⟩ := ih (v / 64)
      refine ⟨rest ++ [UInt8.ofNat (v % 64 + 128)], ?_⟩
      rw [units, hUnits, Nat.div_div_eq_div_mul, ← Nat.pow_succ']
      rfl

theorem ofNat_lt_ofNat {m n : Nat} (h : m < n) (hByte : n < 256) :
    UInt8.ofNat m < UInt8.ofNat n := by
  rw [UInt8.lt_iff_toNat_lt, UInt8.toNat_ofNat', UInt8.toNat_ofNat', Nat.mod_eq_of_lt hByte,
    Nat.mod_eq_of_lt (Nat.lt_trans h hByte)]
  exact h

/-- Of two numbers in the same form, the bytes of the smaller one come first. -/
theorem units_append_lt {mark count m n : Nat} (h : m < n) (hByte : n / 64 ^ count + mark < 256)
    (xs ys : List UInt8) : units mark count m ++ xs < units mark count n ++ ys := by
  induction count generalizing m n xs ys with
  | zero =>
      rw [Nat.pow_zero, Nat.div_one] at hByte
      exact List.cons_lt_cons_iff.mpr (.inl (ofNat_lt_ofNat (by omega) hByte))
  | succ count ih =>
      rw [units, units, List.append_assoc, List.append_assoc]
      rw [Nat.pow_succ', ← Nat.div_div_eq_div_mul] at hByte
      by_cases hTop : m / 64 = n / 64
      · rw [hTop]
        exact List.append_left_lt
          (List.cons_lt_cons_iff.mpr (.inl (ofNat_lt_ofNat (by omega) (by omega))))
      · exact ih (by omega) hByte _ _

/-- A longer form begins with a higher byte. -/
theorem lead_lt_of_form_ne {m n : Nat} (h : m < n) (hForm : form m ≠ form n) :
    lead m < lead n := by
  unfold lead
  unfold form at hForm ⊢
  repeat' split
  all_goals simp_all
  all_goals omega

theorem lead_lt {v : Nat} (h : v < 1114112) : lead v < 256 := by
  unfold lead form
  repeat' split
  all_goals simp only
  all_goals omega

/-- The bytes of a smaller character come first, whatever stands behind them:
they differ from the bytes of the other one before either of them ends. -/
theorem utf8EncodeChar_append_lt {c d : Char} (h : c < d) (xs ys : List UInt8) :
    String.utf8EncodeChar c ++ xs < String.utf8EncodeChar d ++ ys := by
  have hValue : c.val.toNat < d.val.toNat := UInt32.lt_iff_toNat_lt.mp (Char.lt_def.mp h)
  have hByte : lead d.val.toNat < 256 := lead_lt (val_lt d)
  rw [utf8EncodeChar_eq_units, utf8EncodeChar_eq_units]
  by_cases hForm : form c.val.toNat = form d.val.toNat
  · rw [hForm]
    exact units_append_lt hValue hByte xs ys
  · have hLead := lead_lt_of_form_ne hValue hForm
    obtain ⟨front, hFront⟩ := units_eq_cons (form c.val.toNat).1 (form c.val.toNat).2 c.val.toNat
    obtain ⟨back, hBack⟩ := units_eq_cons (form d.val.toNat).1 (form d.val.toNat).2 d.val.toNat
    rw [hFront, hBack]
    exact List.cons_lt_cons_iff.mpr (.inl (ofNat_lt_ofNat hLead hByte))

theorem bytes_lt_of_lt {cs ds : List Char} (h : cs < ds) : bytes cs < bytes ds := by
  induction cs generalizing ds with
  | nil =>
      cases ds with
      | nil => exact absurd h (List.lt_irrefl _)
      | cons d rest =>
          rw [bytes_nil, bytes_cons]
          cases hBytes : String.utf8EncodeChar d with
          | nil => exact absurd hBytes String.utf8EncodeChar_ne_nil
          | cons b more => exact List.nil_lt_cons ..
  | cons c rest ih =>
      cases ds with
      | nil => exact absurd h (List.not_lt_nil _)
      | cons d others =>
          rw [bytes_cons, bytes_cons]
          rcases List.cons_lt_cons_iff.mp h with hFirst | ⟨rfl, hRest⟩
          · exact utf8EncodeChar_append_lt hFirst _ _
          · exact List.append_left_lt (ih hRest)

/-- Texts in ascending order have their bytes in ascending order. -/
theorem encode_lt_of_lt {s t : String} (h : s < t) : encode s < encode t := by
  rw [encode_eq_bytes, encode_eq_bytes]
  exact bytes_lt_of_lt (String.lt_iff_toList_lt.mp h)

end TierTree.Utf8
