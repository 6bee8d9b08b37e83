import TierTree.Proofs.Json.Number

/-!
The round trip of values. A value whose numbers are counts and whose strings
are texts is read back from its own text.
-/

namespace TierTree.Json

open Utf8

/-- Values whose only numbers are counts and whose strings and keys are texts. -/
inductive Value.Plain : Value → Prop
  | null : Plain .null
  | bool (b : Bool) : Plain (.bool b)
  | nat (n : Nat) : Plain (.nat n)
  | text (s : String) : Plain (.text s)
  | array {items : List Value} (hItems : ∀ v ∈ items, Plain v) : Plain (.array items)
  | object {members : List (String × Value)} (hMembers : ∀ m ∈ members, Plain m.2) :
      Plain (.record members)

/-- A value is read back in front of whatever does not go on with a number. -/
def Value.ReadsBack (v : Value) : Prop :=
  ∀ fuel tail, 2 * (bytes v.chars).length ≤ fuel → StopsNumber tail →
    readValue fuel (bytes v.chars ++ tail) = some (v, tail)

/-- A byte that begins a value: no blank and no bracket that closes. -/
def Opens (b : UInt8) : Prop := isGap b = false ∧ b ≠ 93 ∧ b ≠ 125

instance : DecidablePred Opens := fun b =>
  inferInstanceAs (Decidable (isGap b = false ∧ b ≠ 93 ∧ b ≠ 125))

theorem opens_of_isDigit {b : UInt8} (h : isDigit b = true) : Opens b := by
  refine ⟨?_, ?_, ?_⟩
  · simp only [isGap, Bool.or_eq_false_iff, decide_eq_false_iff_not]
    refine ⟨⟨⟨?_, ?_⟩, ?_⟩, ?_⟩ <;>
      rintro rfl <;>
      cases h
  · rintro rfl
    cases h
  · rintro rfl
    cases h

theorem bytes_array (items : List Value) :
    bytes (Value.array items).chars = 91 :: (bytes (itemChars items) ++ [93]) := by
  rw [Value.chars, List.cons_append, bytes_cons, bytes_append]
  rfl

theorem bytes_object (members : List (Option String × Value)) :
    bytes (Value.object members).chars = 123 :: (bytes (memberChars members) ++ [125]) := by
  rw [Value.chars, List.cons_append, bytes_cons, bytes_append]
  rfl

theorem bytes_text (s : String) :
    bytes (Value.text s).chars = 34 :: (bytes (s.toList.flatMap escape) ++ [34]) := by
  rw [Value.text, Value.chars, bytes_quote]
  rfl

theorem bytes_nat (n : Nat) : bytes (Value.nat n).chars = bytes (Nat.toDigits 10 n) := by
  rw [Value.nat, Value.chars, chars_ofNat]

/-- The text of a value begins with a byte that begins a value. -/
theorem Value.Plain.head {v : Value} (h : v.Plain) :
    ∃ b rest, bytes v.chars = b :: rest ∧ Opens b := by
  cases h with
  | null => exact ⟨_, _, rfl, by decide⟩
  | bool b => cases b <;> exact ⟨_, _, rfl, by decide⟩
  | nat n =>
      obtain ⟨b, rest, hBytes, hDigit⟩ := head_toDigits n
      exact ⟨b, rest, (bytes_nat n).trans hBytes, opens_of_isDigit hDigit⟩
  | text s => exact ⟨_, _, bytes_text s, by decide⟩
  | array hItems => exact ⟨_, _, bytes_array _, by decide⟩
  | object hMembers => exact ⟨_, _, bytes_object _, by decide⟩

section Steps
variable {fuel : Nat} {b : UInt8} {bytes inside rest : List UInt8}

theorem skipGaps_of_opens (h : Opens b) : skipGaps (b :: rest) = b :: rest := by
  simp [skipGaps, h.1]

theorem stopsNumber_cons (h : isDigit b = false ∧ b ≠ 46 ∧ b ≠ 69 ∧ b ≠ 101) :
    StopsNumber (b :: rest) := by
  intro c hMem
  cases hMem
  exact h

theorem readValue_number (hGaps : skipGaps bytes = b :: rest) (hFirst : b = 45 ∨ isDigit b = true) :
    readValue (fuel + 1) bytes = (readNumeral (b :: rest)).map fun r => (.number r.1, r.2) := by
  rw [readValue, hGaps]
  have hNot {c : UInt8} {cs : List UInt8} (hEq : b :: rest = c :: cs) :
      c = 45 ∨ isDigit c = true := (List.cons.inj hEq).1 ▸ hFirst
  split
  next hEq => exact absurd (hNot hEq) (by decide)
  next hEq => exact absurd (hNot hEq) (by decide)
  next hEq => exact absurd (hNot hEq) (by decide)
  next hEq => exact absurd (hNot hEq) (by decide)
  next hEq => exact absurd (hNot hEq) (by decide)
  next hEq => exact absurd (hNot hEq) (by decide)
  next => rfl

theorem readValue_items (hGaps : skipGaps bytes = 91 :: rest)
    (hInside : skipGaps rest = b :: inside) (hOpen : b ≠ 93) :
    readValue (fuel + 1) bytes =
      (readItems fuel (b :: inside)).map fun r => (.array r.1, r.2) := by
  rw [readValue, hGaps]
  simp only [hInside]
  split
  next hEq => exact absurd (List.cons.inj hEq).1 hOpen
  next => rfl

theorem readValue_members (hGaps : skipGaps bytes = 123 :: rest)
    (hInside : skipGaps rest = b :: inside) (hOpen : b ≠ 125) :
    readValue (fuel + 1) bytes =
      (readMembers fuel (b :: inside)).map fun r => (.object r.1, r.2) := by
  rw [readValue, hGaps]
  simp only [hInside]
  split
  next hEq => exact absurd (List.cons.inj hEq).1 hOpen
  next => rfl

theorem readValue_digit (h : isDigit b = true) :
    readValue (fuel + 1) (b :: rest) =
      (readNumeral (b :: rest)).map fun r => (.number r.1, r.2) :=
  readValue_number (skipGaps_of_opens (opens_of_isDigit h)) (.inr h)

theorem readValue_string :
    readValue (fuel + 1) (34 :: rest) = (readString rest).map fun r => (.string r.1, r.2) := by
  rw [readValue, skipGaps_of_opens (by decide)]
  rfl

theorem readValue_array (h : Opens b) :
    readValue (fuel + 1) (91 :: b :: rest) =
      (readItems fuel (b :: rest)).map fun r => (.array r.1, r.2) :=
  readValue_items (skipGaps_of_opens (by decide)) (skipGaps_of_opens h) h.2.1

theorem readValue_object (h : Opens b) :
    readValue (fuel + 1) (123 :: b :: rest) =
      (readMembers fuel (b :: rest)).map fun r => (.object r.1, r.2) :=
  readValue_members (skipGaps_of_opens (by decide)) (skipGaps_of_opens h) h.2.2

end Steps

/-- The closing bytes and the comma do not go on with a number. -/
theorem stopsNumber_of_mark {b : UInt8} (h : b ∈ [44, 93, 125]) (rest : List UInt8) :
    StopsNumber (b :: rest) := by
  refine stopsNumber_cons ?_
  simp only [List.mem_cons, List.not_mem_nil, or_false] at h
  rcases h with rfl | rfl | rfl <;> decide

section Containers
variable {v : Value} {key : String} {fuel : Nat} {tail : List UInt8}

theorem readItems_last (h : v.ReadsBack) (hFuel : 2 * (bytes v.chars).length ≤ fuel) :
    readItems (fuel + 1) (bytes v.chars ++ 93 :: tail) = some ([v], tail) := by
  rw [readItems, h fuel _ hFuel (stopsNumber_of_mark (by simp) tail)]
  rfl

theorem readItems_more (h : v.ReadsBack) (hFuel : 2 * (bytes v.chars).length ≤ fuel) :
    readItems (fuel + 1) (bytes v.chars ++ 44 :: tail) =
      (readItems fuel tail).map fun r => (v :: r.1, r.2) := by
  rw [readItems, h fuel _ hFuel (stopsNumber_of_mark (by simp) tail)]
  rfl

/-- A member is read up to the byte after its value. -/
theorem readMembers_member (rest : List UInt8) :
    readMembers (fuel + 1) (bytes (quote (some key)) ++ 58 :: rest) =
      (readValue fuel rest).bind fun r =>
        match skipGaps r.2 with
        | 44 :: rest => (readMembers fuel rest).map fun s => ((some key, r.1) :: s.1, s.2)
        | 125 :: rest => some ([(some key, r.1)], rest)
        | _ => none := by
  rw [bytes_quote, List.append_assoc, List.cons_append, readMembers,
    skipGaps_of_opens (by decide)]
  simp only [List.singleton_append, readString_escape]
  rfl

theorem readMembers_last (h : v.ReadsBack) (hFuel : 2 * (bytes v.chars).length ≤ fuel) :
    readMembers (fuel + 1) (bytes (quote (some key)) ++ 58 :: (bytes v.chars ++ 125 :: tail)) =
      some ([(some key, v)], tail) := by
  rw [readMembers_member, h fuel _ hFuel (stopsNumber_of_mark (by simp) tail)]
  rfl

theorem readMembers_more (h : v.ReadsBack) (hFuel : 2 * (bytes v.chars).length ≤ fuel) :
    readMembers (fuel + 1) (bytes (quote (some key)) ++ 58 :: (bytes v.chars ++ 44 :: tail)) =
      (readMembers fuel tail).map fun r => ((some key, v) :: r.1, r.2) := by
  rw [readMembers_member, h fuel _ hFuel (stopsNumber_of_mark (by simp) tail)]
  rfl

theorem bytes_items_more (v w : Value) (more : List Value) :
    bytes (itemChars (v :: w :: more)) = bytes v.chars ++ 44 :: bytes (itemChars (w :: more)) := by
  rw [itemChars, bytes_append]
  rfl

theorem bytes_members_last (key : String) (v : Value) :
    bytes (memberChars [(some key, v)]) = bytes (quote (some key)) ++ 58 :: bytes v.chars := by
  rw [memberChars, bytes_append]
  rfl

theorem bytes_members_more (key : String) (v : Value) (m : Option String × Value)
    (more : List (Option String × Value)) :
    bytes (memberChars ((some key, v) :: m :: more)) =
      bytes (quote (some key)) ++ 58 ::
        (bytes v.chars ++ 44 :: bytes (memberChars (m :: more))) := by
  rw [memberChars, bytes_append, bytes_append, List.append_assoc]
  rfl

/-- Items are read back up to the closing bracket. -/
theorem readItems_chars {items : List Value} (hSome : items ≠ [])
    (hItems : ∀ v ∈ items, v.ReadsBack) (hFuel : 2 * (bytes (itemChars items)).length < fuel) :
    readItems fuel (bytes (itemChars items) ++ 93 :: tail) = some (items, tail) := by
  induction items generalizing fuel with
  | nil => exact absurd rfl hSome
  | cons v rest ih =>
      obtain ⟨left, rfl⟩ : ∃ left, fuel = left + 1 := ⟨fuel - 1, by omega⟩
      have hFirst := hItems v (by simp)
      cases rest with
      | nil =>
          rw [itemChars] at hFuel ⊢
          exact readItems_last hFirst (by omega)
      | cons w more =>
          have hRest (k : Nat) := @ih k (by simp)
            fun u hMem => hItems u (List.mem_cons_of_mem _ hMem)
          rw [bytes_items_more] at hFuel ⊢
          rw [List.length_append, List.length_cons] at hFuel
          rw [List.append_assoc, List.cons_append, readItems_more hFirst (by omega),
            hRest left (by omega), Option.map_some]

/-- Members are read back up to the closing brace. -/
theorem readMembers_chars {members : List (String × Value)} (hSome : members ≠ [])
    (hMembers : ∀ m ∈ members, m.2.ReadsBack)
    (hFuel : 2 * (bytes (memberChars (members.map fun m => (some m.1, m.2)))).length < fuel) :
    readMembers fuel
        (bytes (memberChars (members.map fun m => (some m.1, m.2))) ++ 125 :: tail) =
      some (members.map fun m => (some m.1, m.2), tail) := by
  induction members generalizing fuel with
  | nil => exact absurd rfl hSome
  | cons m rest ih =>
      obtain ⟨left, rfl⟩ : ∃ left, fuel = left + 1 := ⟨fuel - 1, by omega⟩
      have hFirst := hMembers m (by simp)
      cases rest with
      | nil =>
          simp only [List.map_cons, List.map_nil, bytes_members_last] at hFuel ⊢
          rw [List.length_append, List.length_cons] at hFuel
          rw [List.append_assoc, List.cons_append]
          exact readMembers_last hFirst (by omega)
      | cons w more =>
          have hRest (k : Nat) := @ih k (by simp)
            fun u hMem => hMembers u (List.mem_cons_of_mem _ hMem)
          simp only [List.map_cons, bytes_members_more] at hFuel hRest ⊢
          simp only [List.length_append, List.length_cons] at hFuel
          rw [List.append_assoc, List.cons_append, List.append_assoc, List.cons_append,
            readMembers_more hFirst (by omega), hRest left (by omega), Option.map_some]

end Containers

theorem items_head {v : Value} (items : List Value) (h : v.Plain) :
    ∃ b rest, bytes (itemChars (v :: items)) = b :: rest ∧ Opens b := by
  obtain ⟨b, rest, hBytes, hOpens⟩ := h.head
  cases items with
  | nil => exact ⟨b, rest, hBytes, hOpens⟩
  | cons w more =>
      refine ⟨b, rest ++ 44 :: bytes (itemChars (w :: more)), ?_, hOpens⟩
      rw [bytes_items_more, hBytes, List.cons_append]

theorem members_head (key : String) (v : Value) (members : List (Option String × Value)) :
    ∃ rest, bytes (memberChars ((some key, v) :: members)) = 34 :: rest := by
  cases members with
  | nil => exact ⟨_, by rw [bytes_members_last, bytes_quote]; rfl⟩
  | cons m more => exact ⟨_, by rw [bytes_members_more, bytes_quote]; rfl⟩

/-- Reading a text that is not empty takes at least one call. -/
theorem Value.Plain.readsBack_of_succ {v : Value} (h : v.Plain)
    (hRead : ∀ fuel tail, 2 * (bytes v.chars).length ≤ fuel + 1 → StopsNumber tail →
      readValue (fuel + 1) (bytes v.chars ++ tail) = some (v, tail)) : v.ReadsBack := by
  intro fuel tail hFuel hTail
  obtain ⟨b, rest, hBytes, _⟩ := h.head
  have hSome : fuel = fuel - 1 + 1 := by
    rw [hBytes, List.length_cons] at hFuel
    omega
  rw [hSome]
  exact hRead _ tail (hSome ▸ hFuel) hTail

/-- A plain value is read back from its text. -/
theorem Value.Plain.readsBack {v : Value} (h : v.Plain) : v.ReadsBack := by
  induction h with
  | null => exact Plain.null.readsBack_of_succ fun _ _ _ _ => rfl
  | bool b =>
      refine (Plain.bool b).readsBack_of_succ fun _ _ _ _ => ?_
      cases b <;> rfl
  | nat n =>
      refine (Plain.nat n).readsBack_of_succ fun fuel tail _ hTail => ?_
      obtain ⟨b, rest, hBytes, hDigit⟩ := head_toDigits n
      have hNumeral := readNumeral_ofNat n hTail
      rw [hBytes, List.cons_append] at hNumeral
      rw [bytes_nat, hBytes, List.cons_append, readValue_digit hDigit, hNumeral]
      rfl
  | text s =>
      refine (Plain.text s).readsBack_of_succ fun fuel tail _ _ => ?_
      rw [bytes_text, List.cons_append, readValue_string, List.append_assoc,
        List.singleton_append, readString_escape]
      rfl
  | @array items hItems ih =>
      refine (Plain.array hItems).readsBack_of_succ fun fuel tail hFuel _ => ?_
      rw [bytes_array, List.length_cons, List.length_append] at hFuel
      rw [bytes_array, List.cons_append, List.append_assoc, List.singleton_append]
      cases items with
      | nil => rfl
      | cons v rest =>
          obtain ⟨b, more, hBytes, hOpens⟩ := items_head rest (hItems v (by simp))
          have hRead : readItems fuel _ = some (v :: rest, tail) :=
            readItems_chars (by simp) ih (by omega)
          rw [hBytes, List.cons_append] at hRead ⊢
          rw [readValue_array hOpens, hRead]
          rfl
  | @object members hMembers ih =>
      refine (Plain.object hMembers).readsBack_of_succ fun fuel tail hFuel _ => ?_
      rw [Value.record, bytes_object, List.length_cons, List.length_append] at hFuel
      rw [Value.record, bytes_object, List.cons_append, List.append_assoc, List.singleton_append]
      cases members with
      | nil => rfl
      | cons m rest =>
          have hRead : readMembers fuel _ = some (_, tail) :=
            readMembers_chars (by simp) ih (by omega)
          obtain ⟨more, hBytes⟩ := members_head m.1 m.2 (rest.map fun m => (some m.1, m.2))
          rw [List.map_cons, hBytes, List.cons_append] at hRead ⊢
          rw [readValue_object (by decide), hRead]
          rfl

/-- A plain value is the value of its text. -/
theorem parseBytes_chars {v : Value} (h : v.Plain) : parseBytes (bytes v.chars) = some v := by
  have hRead := h.readsBack (2 * (bytes v.chars).length + 1) [] (by omega)
    (fun _ hMem => by cases hMem)
  rw [List.append_nil] at hRead
  rw [parseBytes, hRead]
  rfl

theorem parse_render {v : Value} (h : v.Plain) : parse v.render = some v := by
  rw [parse, Value.render, encode_ofList, parseBytes_chars h]

section Printed

/-- Characters that are no control characters of ASCII. -/
def Printed (cs : List Char) : Prop := ∀ c ∈ cs, 32 ≤ c.toNat

theorem printed_nil : Printed [] := fun _ hMem => by cases hMem

theorem printed_append {cs ds : List Char} (hFirst : Printed cs) (hSecond : Printed ds) :
    Printed (cs ++ ds) :=
  fun c hMem => (List.mem_append.mp hMem).elim (hFirst c) (hSecond c)

theorem printed_cons {c : Char} {cs : List Char} (hFirst : 32 ≤ c.toNat) (hRest : Printed cs) :
    Printed (c :: cs) :=
  printed_append (fun _ hMem => List.mem_singleton.mp hMem ▸ hFirst) hRest

theorem le_of_mem_bytes {cs : List Char} (h : Printed cs) : ∀ b ∈ bytes cs, 32 ≤ b.toNat := by
  intro b hMem
  obtain ⟨c, hc, hb⟩ := List.mem_flatMap.mp hMem
  by_cases hAscii : c.toNat < 128
  · rw [utf8EncodeChar_ascii hAscii, List.mem_singleton] at hb
    rw [hb, UInt8.toNat_ofNat', Nat.mod_eq_of_lt (by omega)]
    exact h c hc
  · have := le_of_mem_utf8EncodeChar (Nat.not_lt.mp hAscii) hb
    omega

theorem le_hexDigit : ∀ n < 16, 32 ≤ (Hex.digit n).toNat := by decide

theorem printed_escape (c : Char) : Printed (escape c) := by
  unfold escape
  split
  case h_8 =>
    split
    next control =>
      have hHigh := le_hexDigit (c.toNat / 16) (by omega)
      have hLow := le_hexDigit (c.toNat % 16) (by omega)
      simp only [Printed, List.mem_cons, List.not_mem_nil, or_false]
      rintro d (rfl | rfl | rfl | rfl | rfl | rfl) <;> first | assumption | decide
    next visible =>
      intro d hMem
      rw [List.mem_singleton.mp hMem]
      omega
  all_goals exact printed_cons (by decide) (printed_cons (by decide) printed_nil)

theorem printed_quote (s : String) : Printed (quote (some s)) := by
  refine printed_cons (by decide) (printed_append ?_ (printed_cons (by decide) printed_nil))
  intro c hMem
  obtain ⟨d, _, hc⟩ := List.mem_flatMap.mp hMem
  exact printed_escape d c hc

theorem printed_itemChars {items : List Value} (h : ∀ v ∈ items, Printed v.chars) :
    Printed (itemChars items) := by
  induction items with
  | nil => exact printed_nil
  | cons v rest ih =>
      have hFirst := h v (by simp)
      have hRest := ih fun w hMem => h w (List.mem_cons_of_mem _ hMem)
      cases rest with
      | nil => exact hFirst
      | cons w more => exact printed_append hFirst (printed_cons (by decide) hRest)

theorem printed_memberChars {members : List (String × Value)}
    (h : ∀ m ∈ members, Printed m.2.chars) :
    Printed (memberChars (members.map fun m => (some m.1, m.2))) := by
  induction members with
  | nil => exact printed_nil
  | cons m rest ih =>
      have hFirst : Printed (quote (some m.1) ++ ':' :: m.2.chars) :=
        printed_append (printed_quote m.1) (printed_cons (by decide) (h m (by simp)))
      have hRest := ih fun w hMem => h w (List.mem_cons_of_mem _ hMem)
      cases rest with
      | nil => exact hFirst
      | cons w more => exact printed_append hFirst (printed_cons (by decide) hRest)

/-- The text of a plain value is a single line. -/
theorem Value.Plain.printed {v : Value} (h : v.Plain) : Printed v.chars := by
  induction h with
  | null => simp only [Printed, Value.chars, List.forall_mem_cons]; simp
  | bool b => cases b <;> (simp only [Printed, Value.chars, List.forall_mem_cons]; simp)
  | nat n =>
      rw [Value.nat, Value.chars, chars_ofNat]
      intro c hMem
      have := toNat_of_isDigit (isDigit_toDigits c hMem)
      omega
  | text s => exact printed_quote s
  | array hItems ih =>
      exact printed_cons (by decide)
        (printed_append (printed_itemChars ih) (printed_cons (by decide) printed_nil))
  | object hMembers ih =>
      exact printed_cons (by decide)
        (printed_append (printed_memberChars ih) (printed_cons (by decide) printed_nil))

end Printed

end TierTree.Json
