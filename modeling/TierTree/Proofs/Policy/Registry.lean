import Mathlib.Data.List.Pairwise
import TierTree.Policy.Registry

/-!
Tables that can be put in force. Loading a table checks each entry by itself and against
the entries before it, and then looks for the default. A registry that was loaded binds
the number of each entry to that entry, and its default is the one entry with the name
of the default.
-/

namespace TierTree

namespace NameMatching

variable {m : NameMatching} {a b c : String}

theorem same_iff : m.same a b = true ↔ match m with
    | .exact => a = b
    | .ignoringAsciiCase => Text.foldCase a = Text.foldCase b := by
  cases m with
  | exact => exact decide_eq_true_iff
  | ignoringAsciiCase => exact Text.matchesIgnoringCase_iff

theorem same_comm (m : NameMatching) (a b : String) : m.same a b = m.same b a := by
  rw [Bool.eq_iff_iff, same_iff, same_iff]
  cases m <;> exact eq_comm

/-- Two names that name what a third one names name the same. -/
theorem same_of_same (hLeft : m.same a c = true) (hRight : m.same b c = true) :
    m.same a b = true := by
  rw [same_iff] at *
  cases m <;> exact hLeft.trans hRight.symm

/-- What is found for a name has it. -/
theorem named_of_find? {policies : List Policy} {p : Policy}
    (hFound : policies.find? (m.same ·.name a) = some p) :
    p ∈ policies ∧ m.same p.name a = true :=
  ⟨List.mem_of_find?_eq_some hFound, by simpa only using List.find?_some hFound⟩

end NameMatching

/-- An entry that may be in a table, whatever the others are. -/
structure Policy.Fit (p : Policy) : Prop where
  explicit : p.id.isExplicit = true
  named : Text.trim p.name ≠ ""
  placed : p.media ≠ []

namespace Registry

variable {matching : NameMatching} {earlier entries : List Policy} {p q : Policy}
  {t : PolicyTable} {r : Registry} {id : PolicyId} {name : String}

/-- Two entries that can be told apart by their numbers and by their names. -/
def Apart (matching : NameMatching) (p q : Policy) : Prop :=
  p.id ≠ q.id ∧ matching.same p.name q.name = false

instance : Std.Symm (Apart matching) where
  symm p q h := ⟨h.1.symm, matching.same_comm p.name q.name ▸ h.2⟩

theorem ite_some_eq_none_iff {α : Type} {c : Prop} [Decidable c] {a : α} {rest : Option α} :
    (if c then some a else rest) = none ↔ ¬ c ∧ rest = none := by
  by_cases h : c <;> simp [h]

/-- An entry passes if it is fit and apart from each entry before it. -/
theorem entryFault?_eq_none_iff :
    entryFault? matching earlier p = none ↔ p.Fit ∧ ∀ q ∈ earlier, Apart matching q p := by
  simp only [entryFault?, ite_some_eq_none_iff, Bool.not_eq_true', Bool.not_eq_false,
    Bool.not_eq_true, List.any_eq_false, decide_eq_true_eq, and_true]
  constructor
  · rintro ⟨hId, hNamed, hPlaced, hIds, hNames⟩
    exact ⟨⟨hId, hNamed, hPlaced⟩, fun q hMem => ⟨hIds q hMem, hNames q hMem⟩⟩
  · rintro ⟨hFit, hApart⟩
    exact ⟨hFit.explicit, hFit.named, hFit.placed, fun q hMem => (hApart q hMem).1,
      fun q hMem => (hApart q hMem).2⟩

theorem firstFault?_eq_none_iff :
    firstFault? matching earlier entries = none ↔
      (∀ p ∈ entries, p.Fit) ∧ (∀ q ∈ earlier, ∀ p ∈ entries, Apart matching q p) ∧
        entries.Pairwise (Apart matching) := by
  induction entries generalizing earlier with
  | nil => simp [firstFault?]
  | cons p rest ih =>
      rw [firstFault?]
      cases hFault : entryFault? matching earlier p with
      | some f =>
          have hUnfit : ¬ (p.Fit ∧ ∀ q ∈ earlier, Apart matching q p) := fun hPasses => by
            rw [entryFault?_eq_none_iff.mpr hPasses] at hFault
            cases hFault
          refine ⟨nofun, fun ⟨hFit, hApart, _⟩ => absurd ⟨hFit p List.mem_cons_self, ?_⟩ hUnfit⟩
          exact fun q hMem => hApart q hMem p List.mem_cons_self
      | none =>
          obtain ⟨hFit, hApart⟩ := entryFault?_eq_none_iff.mp hFault
          simp only [ih, List.forall_mem_cons, List.pairwise_cons, List.forall_mem_append,
            List.not_mem_nil, false_implies, implies_true, and_true]
          constructor
          · rintro ⟨hFits, ⟨hEarlier, hHere⟩, hRest⟩
            exact ⟨⟨hFit, hFits⟩, fun q hMem => ⟨hApart q hMem, hEarlier q hMem⟩, hHere, hRest⟩
          · rintro ⟨⟨_, hFits⟩, hEarlier, hHere, hRest⟩
            exact ⟨hFits, ⟨fun q hMem => (hEarlier q hMem).2, hHere⟩, hRest⟩

/-- A table that can be put in force, and the registry that it becomes. -/
structure Loads (t : PolicyTable) (r : Registry) : Prop where
  nonempty : t.policies ≠ []
  fit : ∀ p ∈ t.policies, p.Fit
  apart : t.policies.Pairwise (Apart t.matching)
  standard : ∃ name, t.defaultName = some name ∧
    ∃ p, t.policies.find? (t.matching.same ·.name name) = some p ∧ r.defaultId = p.id
  byId : r.byId = byNumber t.policies
  matching : r.matching = t.matching

/-- A table is put in force just if it loads: the policies are registered one by one,
and each has to be fit and apart from those before it. -/
theorem load_eq_ok_iff : load t = .ok r ↔ Loads t r := by
  obtain ⟨byId, defaultId, matching, registered⟩ := r
  constructor
  · intro h
    unfold load at h
    split at h
    · cases h
    next hSome =>
      split at h
      · cases h
      next hPasses =>
        obtain ⟨hFit, _, hApart⟩ := firstFault?_eq_none_iff.mp hPasses
        split at h
        · cases h
        next name hName =>
          split at h
          · cases h
          next p hFound =>
            cases h
            exact ⟨hSome, hFit, hApart, ⟨name, hName, p, hFound, rfl⟩, rfl, rfl⟩
  · rintro ⟨hSome, hFit, hApart, ⟨name, hName, p, hFound, hId⟩, hById, hMatching⟩
    obtain rfl : defaultId = p.id := hId
    obtain rfl : byId = byNumber t.policies := hById
    obtain rfl : matching = t.matching := hMatching
    have hPasses : firstFault? t.matching [] t.policies = none :=
      firstFault?_eq_none_iff.mpr ⟨hFit, nofun, hApart⟩
    unfold load
    rw [if_neg hSome, hPasses]
    simp only [hName]
    split
    next hNone => cases hFound.symm.trans hNone
    next q hOther =>
      cases hFound.symm.trans hOther
      rfl

namespace Loads
variable (h : Loads t r)
include h

/-- Entries that cannot be told apart are the same. -/
theorem eq_of_not_apart (hLeft : p ∈ t.policies) (hRight : q ∈ t.policies)
    (hSame : ¬ Apart t.matching p q) : p = q := by
  by_contra hOther
  exact hSame (h.apart.forall hLeft hRight hOther)

/-- No two entries have what counts as the same name. -/
theorem eq_of_same_name (hLeft : p ∈ t.policies) (hRight : q ∈ t.policies)
    (hLeftName : t.matching.same p.name name = true)
    (hRightName : t.matching.same q.name name = true) : p = q := by
  refine h.eq_of_not_apart hLeft hRight fun hApart => ?_
  cases (NameMatching.same_of_same hLeftName hRightName).symm.trans hApart.2

theorem nodup_ids : (t.policies.map (·.id)).Nodup :=
  List.pairwise_map.mpr (h.apart.imp fun hApart => hApart.1)

/-- A registry binds the numbers of the entries of its table, each to its entry. -/
theorem policy?_eq_some_iff : r.policy? id = some p ↔ p ∈ t.policies ∧ p.id = id := by
  have hKeys : ((t.policies.map fun p => (p.id, p)).map (·.1)).Nodup := by
    simpa only [List.map_map, Function.comp_def] using h.nodup_ids
  rw [policy?, h.byId, byNumber, SortedMap.get?_ofList hKeys, List.mem_map]
  constructor
  · rintro ⟨q, hMem, hPair⟩
    cases hPair
    exact ⟨hMem, rfl⟩
  · rintro ⟨hMem, rfl⟩
    exact ⟨p, hMem, rfl⟩

theorem policy?_eq_none_iff : r.policy? id = none ↔ ∀ p ∈ t.policies, p.id ≠ id := by
  simp only [Option.eq_none_iff_forall_ne_some, ne_eq, h.policy?_eq_some_iff, not_and]

/-- The number of the default is bound to an entry with the name that the table has for the
default. -/
theorem exists_default : ∃ name, t.defaultName = some name ∧ ∃ p ∈ t.policies,
    t.matching.same p.name name = true ∧ r.policy? r.defaultId = some p ∧
      r.defaultPolicy = p := by
  obtain ⟨name, hName, p, hFound, hId⟩ := h.standard
  obtain ⟨hMem, hSame⟩ := NameMatching.named_of_find? hFound
  have hBound := h.policy?_eq_some_iff.mpr ⟨hMem, hId.symm⟩
  exact ⟨name, hName, p, hMem, hSame, hBound, Option.get_of_eq_some _ hBound⟩

/-- The default is the one entry with the name that the table has for it. -/
theorem eq_defaultPolicy_iff (hName : t.defaultName = some name) :
    p = r.defaultPolicy ↔ p ∈ t.policies ∧ t.matching.same p.name name = true := by
  obtain ⟨other, hOther, q, hMem, hSame, _, hDefault⟩ := h.exists_default
  cases hName.symm.trans hOther
  rw [hDefault]
  constructor
  · rintro rfl
    exact ⟨hMem, hSame⟩
  · rintro ⟨hHere, hNamed⟩
    exact h.eq_of_same_name hHere hMem hNamed hSame

end Loads

end Registry

end TierTree
