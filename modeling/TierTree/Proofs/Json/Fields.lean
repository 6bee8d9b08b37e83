import TierTree.Json.Record
import TierTree.Proofs.Json.RoundTrip

/-!
Records that are read back. The fields of a printed record are found by their
names, and a tagged record gives its tag and the rest of its fields.
-/

namespace TierTree.Json

namespace Value

section Plain
variable {α : Type} {encode : α → Value}

@[simp] theorem plain_text (s : String) : (Value.text s).Plain := .text s

@[simp] theorem plain_nat (n : Nat) : (Value.nat n).Plain := .nat n

@[simp] theorem plain_bool (b : Bool) : (Value.bool b).Plain := .bool b

@[simp] theorem plain_record_nil : (Value.record []).Plain := .object (by simp)

@[simp] theorem plain_record_cons {key : String} {v : Value} {fields : List (String × Value)}
    (hFirst : v.Plain) (hRest : ∀ m ∈ fields, m.2.Plain) :
    (Value.record ((key, v) :: fields)).Plain := by
  refine .object fun m hMem => ?_
  rcases List.mem_cons.mp hMem with rfl | hMem
  · exact hFirst
  · exact hRest m hMem

@[simp] theorem plain_list {l : List α} (h : ∀ a, (encode a).Plain) :
    (Value.list encode l).Plain := by
  refine .array fun v hMem => ?_
  obtain ⟨a, _, rfl⟩ := List.mem_map.mp hMem
  exact h a

@[simp] theorem plain_option {o : Option α} (h : ∀ a, (encode a).Plain) :
    (Value.option encode o).Plain := by
  cases o with
  | none => exact .null
  | some a => exact h a

end Plain

section Scalars

@[simp] theorem text?_text (s : String) : (Value.text s).text? = some s := rfl

@[simp] theorem bool?_bool (b : Bool) : (Value.bool b).bool? = some b := rfl

theorem natBelow?_nat {n bound : Nat} (h : n < bound) :
    (Value.nat n).natBelow? bound = some n := by
  simp [natBelow?, Value.nat, h]

@[simp] theorem uint8?_nat (n : UInt8) : (Value.nat n.toNat).uint8? = some n := by
  simp [uint8?, natBelow?_nat n.toNat_lt_size]

@[simp] theorem uint16?_nat (n : UInt16) : (Value.nat n.toNat).uint16? = some n := by
  simp [uint16?, natBelow?_nat n.toNat_lt_size]

@[simp] theorem uint32?_nat (n : UInt32) : (Value.nat n.toNat).uint32? = some n := by
  simp [uint32?, natBelow?_nat n.toNat_lt_size]

@[simp] theorem uint64?_nat (n : UInt64) : (Value.nat n.toNat).uint64? = some n := by
  simp [uint64?, natBelow?_nat n.toNat_lt_size]

/-- A list of values is read back when each of them is. -/
theorem list?_list {α : Type} {encode : α → Value} {decode : Value → Option α}
    (h : ∀ a, decode (encode a) = some a) (l : List α) :
    (Value.list encode l).list? decode = some l := by
  rw [list, list?]
  induction l with
  | nil => rfl
  | cons a rest ih => simp [h, ih]

theorem option?_option {α : Type} {encode : α → Value} {decode : Value → Option α}
    (h : ∀ a, decode (encode a) = some a) (hValue : ∀ a, encode a ≠ .null) (o : Option α) :
    (Value.option encode o).option? decode = some o := by
  cases o with
  | none => rfl
  | some a =>
      have hSome := h a
      rw [option]
      unfold option?
      split
      next hNull => exact absurd hNull (hValue a)
      next => rw [hSome, Option.map_some]

end Scalars

section Depth
variable {room : Nat}

@[simp] theorem fits_text (s : String) : (Value.text s).fits room = true := by
  cases room <;> rfl

@[simp] theorem fits_bool (b : Bool) : (Value.bool b).fits room = true := by
  cases room <;> rfl

theorem fits_nat {n : Nat} (h : n < UInt64.size) : (Value.nat n).fits room = true := by
  cases room <;> simp [Value.nat, fits, overflows_ofNat h]

@[simp] theorem fits_uint8 (n : UInt8) : (Value.nat n.toNat).fits room = true :=
  fits_nat (Nat.lt_trans n.toNat_lt_size (by decide))

@[simp] theorem fits_uint16 (n : UInt16) : (Value.nat n.toNat).fits room = true :=
  fits_nat (Nat.lt_trans n.toNat_lt_size (by decide))

@[simp] theorem fits_uint64 (n : UInt64) : (Value.nat n.toNat).fits room = true :=
  fits_nat n.toNat_lt_size

theorem fits_record {fields : List (String × Value)} (h : ∀ m ∈ fields, m.2.fits room = true) :
    (Value.record fields).fits (room + 1) = true := by
  rw [record, fits]
  induction fields with
  | nil => rfl
  | cons m rest ih =>
      rw [List.map_cons, membersFit, h m (by simp),
        ih fun m' hMem => h m' (List.mem_cons_of_mem _ hMem)]
      rfl

end Depth

section Fields
variable {tag kind : String} {names : List String} {fields : List (String × Value)} {room : Nat}

theorem mapM_members : (fields.map fun m => (some m.1, m.2)).mapM
    (fun m : Option String × Value => m.1.map (·, m.2)) = some fields := by
  induction fields with
  | nil => rfl
  | cons m rest ih => simp [ih]

/-- The fields of a printed record, none of them given twice. -/
theorem record?_record (h : names.all fun n => fields.countP (·.1 = n) ≤ 1) :
    (Value.record fields).record? names = some ⟨false, fields⟩ := by
  rw [record, record?, mapM_members]
  simp only [Option.bind_eq_bind, Option.bind_some, if_pos h]

/-- The members that carry a tag are the one it was printed with. -/
theorem partition_tag (v : Value) (hFresh : ∀ m ∈ fields, m.1 ≠ tag) :
    ((some tag, v) :: fields.map fun m => (some m.1, m.2)).partition
      (fun m : Option String × Value => m.1 = some tag) =
        ([(some tag, v)], fields.map fun m => (some m.1, m.2)) := by
  have hOther : ∀ m ∈ fields.map fun m => (some m.1, m.2),
      decide ((m : Option String × Value).1 = some tag) = false := by
    intro m hMem
    obtain ⟨field, hField, rfl⟩ := List.mem_map.mp hMem
    simpa using hFresh field hField
  rw [List.partition_eq_filter_filter, List.filter_cons_of_pos (by simp),
    List.filter_cons_of_neg (by simp), List.filter_eq_nil_iff.mpr (by simpa using hOther),
    List.filter_eq_self.mpr (by simpa using hOther)]

/-- The tag of a printed record, and the record without it. -/
theorem tagged?_record (hFits : ∀ m ∈ fields, m.2.fits room = true)
    (hFresh : ∀ m ∈ fields, m.1 ≠ tag) :
    (Value.record ((tag, .text kind) :: fields)).tagged? tag (room + 1) =
      some (kind, .record fields) := by
  have hAll : (Value.record ((tag, .text kind) :: fields)).fits (room + 1) = true := by
    refine fits_record fun m hMem => ?_
    rcases List.mem_cons.mp hMem with rfl | hMem
    · exact fits_text kind
    · exact hFits m hMem
  unfold tagged?
  rw [if_pos hAll]
  simp only [record, List.map_cons, partition_tag _ hFresh, text]

end Fields

end Value

end TierTree.Json
