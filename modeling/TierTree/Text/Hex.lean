/-!
Hexadecimal digits. A fixed number of lower-case digits is written, digits of
either case are read.
-/

namespace TierTree.Hex

/-- The lower-case digit of a value below 16. -/
def digit (value : Nat) : Char :=
  if value < 10 then Char.ofNat (48 + value) else Char.ofNat (87 + value)

/-- The value of a digit of either case. -/
def value? (c : Char) : Option Nat :=
  let n := c.toNat
  if 48 ≤ n ∧ n ≤ 57 then some (n - 48)
  else if 97 ≤ n ∧ n ≤ 102 then some (n - 87)
  else if 65 ≤ n ∧ n ≤ 70 then some (n - 55)
  else none

/-- The last `width` digits of a number, zeros in front. -/
def digits : Nat → Nat → List Char
  | 0, _ => []
  | width + 1, number => digits width (number / 16) ++ [digit (number % 16)]

/-- Read digits on top of the digits before them. -/
def readOnto? : Nat → List Char → Option Nat
  | number, [] => some number
  | number, c :: rest => do readOnto? (number * 16 + (← value? c)) rest

/-- The number that a list of digits, possibly empty, stands for. -/
def read? (cs : List Char) : Option Nat := readOnto? 0 cs

theorem length_digits (width number : Nat) : (digits width number).length = width := by
  induction width generalizing number with
  | zero => rfl
  | succ width ih => simp [digits, ih]

theorem value?_digit {value : Nat} (h : value < 16) : value? (digit value) = some value := by
  revert h value
  decide

theorem readOnto?_append (number : Nat) (cs ds : List Char) :
    readOnto? number (cs ++ ds) = (readOnto? number cs).bind (readOnto? · ds) := by
  induction cs generalizing number with
  | nil => rfl
  | cons c rest ih =>
      simp only [List.cons_append, readOnto?]
      cases value? c <;> simp [ih]

/-- The digits of a number read back as that number, up to its width. -/
theorem read?_digits (width number : Nat) :
    read? (digits width number) = some (number % (1 <<< (4 * width))) := by
  induction width generalizing number with
  | zero => simp [read?, digits, readOnto?, Nat.mod_one]
  | succ width ih =>
      have front := ih (number / 16)
      rw [read?] at front ⊢
      rw [digits, readOnto?_append, front]
      have low : number % 16 < 16 := Nat.mod_lt _ (by decide)
      simp only [Option.bind_some, readOnto?, value?_digit low, Option.bind_eq_bind]
      have split : 1 <<< (4 * (width + 1)) = 16 * 1 <<< (4 * width) := by
        rw [Nat.mul_succ, Nat.shiftLeft_add, Nat.shiftLeft_eq, Nat.mul_comm]
      rw [split, Nat.mod_mul]
      congr 1
      omega

end TierTree.Hex
