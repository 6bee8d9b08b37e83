/-!
Finite maps as lists of bindings in strictly ascending key order. The order
is part of the type, so a map is determined by its lookups (`SortedMap.ext`),
and each operation is described by what it does to a lookup.
-/

namespace TierTree

/-- A strict order that tells any two different keys apart. -/
class KeyOrder (κ : Type) [LT κ] : Prop where
  irrefl : ∀ a : κ, ¬ a < a
  trans : ∀ {a b c : κ}, a < b → b < c → a < c
  connected : ∀ {a b : κ}, ¬ a < b → ¬ b < a → a = b

instance : KeyOrder String where
  irrefl := String.lt_irrefl
  trans := String.lt_trans
  connected := fun h g => String.le_antisymm (String.not_lt.mp g) (String.not_lt.mp h)

instance : KeyOrder UInt64 where
  irrefl := UInt64.lt_irrefl
  trans := UInt64.lt_trans
  connected := fun h g => UInt64.le_antisymm (UInt64.not_lt.mp g) (UInt64.not_lt.mp h)

/-- Bindings in ascending key order, at most one for each key. -/
structure SortedMap (κ α : Type) [LT κ] where
  entries : List (κ × α)
  ascending : entries.Pairwise (fun a b => a.1 < b.1) := by simp
  deriving DecidableEq

namespace SortedMap

variable {κ α β : Type} [LT κ]

instance [Repr κ] [Repr α] : Repr (SortedMap κ α) where
  reprPrec m n := reprPrec m.entries n

def empty : SortedMap κ α := ⟨[], .nil⟩

instance : Inhabited (SortedMap κ α) := ⟨empty⟩

/-- The number of bindings. -/
def size (m : SortedMap κ α) : Nat := m.entries.length

def isEmpty (m : SortedMap κ α) : Bool := m.entries.isEmpty

def keys (m : SortedMap κ α) : List κ := m.entries.map (·.1)

/-- The bound values, in the order of their keys. -/
def values (m : SortedMap κ α) : List α := m.entries.map (·.2)

section Lookup
variable [DecidableEq κ]

def get? (m : SortedMap κ α) (k : κ) : Option α :=
  (m.entries.find? (·.1 = k)).map (·.2)

def contains (m : SortedMap κ α) (k : κ) : Bool := (m.get? k).isSome

end Lookup

section Insert
variable [DecidableLT κ]

/-- Put a binding in its place, over an older one of the same key. -/
def insertEntry (k : κ) (a : α) : List (κ × α) → List (κ × α)
  | [] => [(k, a)]
  | (j, b) :: rest =>
      if k < j then (k, a) :: (j, b) :: rest
      else if j < k then (j, b) :: insertEntry k a rest
      else (k, a) :: rest

theorem mem_insertEntry {k : κ} {a : α} {e : κ × α} {l : List (κ × α)}
    (h : e ∈ insertEntry k a l) : e = (k, a) ∨ e ∈ l := by
  induction l with
  | nil => simpa [insertEntry] using h
  | cons x rest ih =>
      simp only [insertEntry] at h
      split at h
      · simpa using h
      · split at h
        · rcases List.mem_cons.mp h with rfl | h
          · simp
          · rcases ih h with h | h <;> simp [h]
        · rcases List.mem_cons.mp h with rfl | h <;> simp_all

theorem insertEntry_ascending [KeyOrder κ] {k : κ} {a : α} {l : List (κ × α)}
    (h : l.Pairwise (fun a b => a.1 < b.1)) :
    (insertEntry k a l).Pairwise (fun a b => a.1 < b.1) := by
  induction l with
  | nil => simp [insertEntry]
  | cons x rest ih =>
      obtain ⟨above, ordered⟩ := List.pairwise_cons.mp h
      simp only [insertEntry]
      split
      next below =>
        refine List.pairwise_cons.mpr ⟨fun e he => ?_, h⟩
        rcases List.mem_cons.mp he with rfl | he
        · exact below
        · exact KeyOrder.trans below (above e he)
      next notBelow =>
        split
        next later =>
          refine List.pairwise_cons.mpr ⟨fun e he => ?_, ih ordered⟩
          rcases mem_insertEntry he with rfl | he
          · exact later
          · exact above e he
        next notLater =>
          have same : k = x.1 := KeyOrder.connected notBelow notLater
          exact List.pairwise_cons.mpr ⟨fun e he => same ▸ above e he, ordered⟩

def insert [KeyOrder κ] (m : SortedMap κ α) (k : κ) (a : α) : SortedMap κ α :=
  ⟨insertEntry k a m.entries, insertEntry_ascending m.ascending⟩

/-- The map of a list of bindings, where a later one replaces an earlier one
of the same key. -/
def ofList [KeyOrder κ] (l : List (κ × α)) : SortedMap κ α :=
  l.foldl (fun m e => m.insert e.1 e.2) empty

end Insert

/-- Drop the binding of a key. -/
def erase [DecidableEq κ] (m : SortedMap κ α) (k : κ) : SortedMap κ α :=
  ⟨m.entries.filter (·.1 ≠ k), m.ascending.filter _⟩

theorem filterMap_ascending {f : κ → α → Option β} {l : List (κ × α)}
    (h : l.Pairwise (fun a b => a.1 < b.1)) :
    (l.filterMap fun e => (f e.1 e.2).map (e.1, ·)).Pairwise (fun a b => a.1 < b.1) := by
  refine h.filterMap _ fun x y lt x' hx y' hy => ?_
  obtain ⟨_, _, rfl⟩ := Option.map_eq_some_iff.mp hx
  obtain ⟨_, _, rfl⟩ := Option.map_eq_some_iff.mp hy
  exact lt

/-- Change or drop each binding. -/
def filterMap (m : SortedMap κ α) (f : κ → α → Option β) : SortedMap κ β :=
  ⟨m.entries.filterMap fun e => (f e.1 e.2).map (e.1, ·), filterMap_ascending m.ascending⟩

section Laws
variable [DecidableEq κ]

/-- The entries of a map are its lookups. -/
theorem mem_entries_iff [KeyOrder κ] {m : SortedMap κ α} {k : κ} {a : α} :
    (k, a) ∈ m.entries ↔ m.get? k = some a := by
  obtain ⟨l, ordered⟩ := m
  simp only [get?]
  induction l with
  | nil => simp
  | cons x rest ih =>
      obtain ⟨above, tail⟩ := List.pairwise_cons.mp ordered
      obtain ⟨j, b⟩ := x
      rw [List.find?_cons]
      by_cases same : j = k
      · subst same
        have outside : (j, a) ∉ rest := fun member => KeyOrder.irrefl j (above _ member)
        simp [outside, eq_comm]
      · simpa [same, Ne.symm same] using ih tail

/-- Maps with equal lookups are equal. -/
theorem ext [KeyOrder κ] {m n : SortedMap κ α} (h : ∀ k, m.get? k = n.get? k) : m = n := by
  have members : ∀ e : κ × α, e ∈ m.entries ↔ e ∈ n.entries := fun e => by
    rw [mem_entries_iff, mem_entries_iff, h]
  obtain ⟨l, hl⟩ := m
  obtain ⟨r, hr⟩ := n
  simp only at members
  congr
  clear h
  induction l generalizing r with
  | nil =>
      cases r with
      | nil => rfl
      | cons y ys => exact absurd ((members y).mpr (by simp)) (by simp)
  | cons x xs ih =>
      cases r with
      | nil => exact absurd ((members x).mp (by simp)) (by simp)
      | cons y ys =>
          obtain ⟨aboveX, tailX⟩ := List.pairwise_cons.mp hl
          obtain ⟨aboveY, tailY⟩ := List.pairwise_cons.mp hr
          have first : x = y := by
            rcases List.mem_cons.mp ((members x).mp (by simp)) with same | inY
            · exact same
            · rcases List.mem_cons.mp ((members y).mpr (by simp)) with same | inX
              · exact same.symm
              · exact absurd (KeyOrder.trans (aboveY x inY) (aboveX y inX)) (KeyOrder.irrefl y.1)
          subst first
          rw [ih tailX ys tailY fun e => ?_]
          constructor
          · intro member
            rcases List.mem_cons.mp ((members e).mp (List.mem_cons_of_mem _ member)) with rfl | inY
            · exact absurd (aboveX e member) (KeyOrder.irrefl e.1)
            · exact inY
          · intro member
            rcases List.mem_cons.mp ((members e).mpr (List.mem_cons_of_mem _ member)) with rfl | inX
            · exact absurd (aboveY e member) (KeyOrder.irrefl e.1)
            · exact inX

@[simp] theorem get?_empty (k : κ) : (empty : SortedMap κ α).get? k = none := rfl

theorem get?_insert [DecidableLT κ] [KeyOrder κ] (m : SortedMap κ α) (k j : κ) (a : α) :
    (m.insert k a).get? j = if j = k then some a else m.get? j := by
  obtain ⟨l, ordered⟩ := m
  simp only [get?, insert]
  induction l with
  | nil => by_cases h : k = j <;> simp [insertEntry, h, eq_comm]
  | cons x rest ih =>
      have tail := (List.pairwise_cons.mp ordered).2
      simp only [insertEntry]
      split
      next below =>
        by_cases h : k = j
        · simp [h]
        · simp [h, Ne.symm h]
      next notBelow =>
        split
        next later =>
          rw [List.find?_cons, List.find?_cons]
          by_cases h : x.1 = j
          · have apart : j ≠ k := fun same =>
              KeyOrder.irrefl k (by rw [← same, ← h] at later ⊢; exact later)
            simp [h, apart]
          · simpa [h] using ih tail
        next notLater =>
          have same : k = x.1 := KeyOrder.connected notBelow notLater
          by_cases h : k = j
          · simp [h]
          · have : x.1 ≠ j := same ▸ h
            simp [h, Ne.symm h, this]

theorem get?_erase (m : SortedMap κ α) (k j : κ) :
    (m.erase k).get? j = if j = k then none else m.get? j := by
  obtain ⟨l, ordered⟩ := m
  simp only [get?, erase, List.find?_filter]
  by_cases h : j = k
  · subst h
    simp [List.find?_eq_none]
  · simp only [if_neg h]
    congr 2
    funext e
    by_cases g : e.1 = j <;> simp [g, h]

theorem get?_filterMap [KeyOrder κ] (m : SortedMap κ α) (f : κ → α → Option β) (k : κ) :
    (m.filterMap f).get? k = (m.get? k).bind (f k) := by
  apply Option.ext
  intro b
  rw [← mem_entries_iff]
  simp only [filterMap, List.mem_filterMap, Option.map_eq_some_iff, Prod.mk.injEq,
    Option.bind_eq_some_iff]
  constructor
  · rintro ⟨⟨j, a⟩, member, b', found, rfl, rfl⟩
    exact ⟨a, mem_entries_iff.mp member, found⟩
  · rintro ⟨a, bound, found⟩
    exact ⟨(k, a), mem_entries_iff.mpr bound, b, found, rfl, rfl⟩

theorem mem_keys_iff [KeyOrder κ] {m : SortedMap κ α} {k : κ} :
    k ∈ m.keys ↔ (m.get? k).isSome = true := by
  simp only [keys, List.mem_map, Option.isSome_iff_exists, ← mem_entries_iff]
  constructor
  · rintro ⟨⟨j, a⟩, member, rfl⟩
    exact ⟨a, member⟩
  · rintro ⟨a, member⟩
    exact ⟨(k, a), member, rfl⟩

theorem mem_keys_insert [DecidableLT κ] [KeyOrder κ] {m : SortedMap κ α} {k j : κ} {a : α} :
    j ∈ (m.insert k a).keys ↔ j = k ∨ j ∈ m.keys := by
  rw [mem_keys_iff, mem_keys_iff, get?_insert]
  by_cases h : j = k <;> simp [h]

/-- The keys of a map are the keys of the bindings it was made from. -/
theorem mem_keys_ofList [DecidableLT κ] [KeyOrder κ] {l : List (κ × α)} {k : κ} :
    k ∈ (ofList l).keys ↔ k ∈ l.map (·.1) := by
  suffices general : ∀ m : SortedMap κ α,
      k ∈ (l.foldl (fun m e => m.insert e.1 e.2) m).keys ↔ k ∈ m.keys ∨ k ∈ l.map (·.1) by
    rw [ofList, general]
    simp [keys, empty]
  intro m
  induction l generalizing m with
  | nil => simp
  | cons e rest ih =>
      rw [List.foldl_cons, ih, mem_keys_insert, List.map_cons, List.mem_cons]
      constructor
      · rintro ((h | h) | h)
        · exact .inr (.inl h)
        · exact .inl h
        · exact .inr (.inr h)
      · rintro (h | h | h)
        · exact .inl (.inr h)
        · exact .inl (.inl h)
        · exact .inr h

/-- A map made from bindings of different keys binds what they bind. -/
theorem get?_ofList [DecidableLT κ] [KeyOrder κ] {l : List (κ × α)} {k : κ} {a : α}
    (h : (l.map (·.1)).Nodup) : (ofList l).get? k = some a ↔ (k, a) ∈ l := by
  suffices general : ∀ m : SortedMap κ α,
      (l.foldl (fun m e => m.insert e.1 e.2) m).get? k = some a ↔
        (k, a) ∈ l ∨ k ∉ l.map (·.1) ∧ m.get? k = some a by
    rw [ofList, general]
    simp
  intro m
  induction l generalizing m with
  | nil => simp
  | cons e rest ih =>
      obtain ⟨j, b⟩ := e
      obtain ⟨outside, distinct⟩ := List.nodup_cons.mp h
      rw [List.foldl_cons, ih distinct, get?_insert, List.map_cons, List.mem_cons, List.mem_cons]
      by_cases same : k = j
      · subst same
        have unbound : (k, a) ∉ rest := fun member => outside (List.mem_map.mpr ⟨_, member, rfl⟩)
        simp [unbound, outside, eq_comm]
      · simp [same]

end Laws

theorem eq_of_entries {m n : SortedMap κ α} (h : m.entries = n.entries) : m = n := by
  cases m
  cases n
  cases h
  rfl

section Rebuild
variable [DecidableLT κ] [KeyOrder κ]

/-- A binding above all others comes last. -/
theorem entries_insert_last {m : SortedMap κ α} {k : κ} {a : α} (h : ∀ e ∈ m.entries, e.1 < k) :
    (m.insert k a).entries = m.entries ++ [(k, a)] := by
  obtain ⟨l, ordered⟩ := m
  simp only [insert] at h ⊢
  clear ordered
  induction l with
  | nil => rfl
  | cons x rest ih =>
      have later : x.1 < k := h x (by simp)
      have notEarlier : ¬ k < x.1 := fun earlier =>
        KeyOrder.irrefl k (KeyOrder.trans earlier later)
      rw [insertEntry, if_neg notEarlier, if_pos later,
        ih fun e he => h e (List.mem_cons_of_mem _ he), List.cons_append]

/-- A map is made again from its entries. -/
theorem ofList_entries (m : SortedMap κ α) : ofList m.entries = m := by
  suffices general : ∀ (l : List (κ × α)) (n : SortedMap κ α),
      (n.entries ++ l).Pairwise (fun a b => a.1 < b.1) →
      (l.foldl (fun m e => m.insert e.1 e.2) n).entries = n.entries ++ l by
    exact eq_of_entries (general m.entries empty m.ascending)
  intro l
  induction l with
  | nil => simp
  | cons e rest ih =>
      intro n ordered
      have below : ∀ x ∈ n.entries, x.1 < e.1 := fun x hx =>
        (List.pairwise_append.mp ordered).2.2 x hx e (by simp)
      have last := entries_insert_last (a := e.2) below
      rw [List.foldl_cons, ih _ (by simpa [last] using ordered), last]
      simp

end Rebuild

end SortedMap

end TierTree
