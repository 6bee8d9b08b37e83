import Mathlib.Data.List.Nodup
import Mathlib.Data.List.Perm.Basic
import Mathlib.Data.List.TakeWhile
import Mathlib.Tactic.MkIffOfInductiveProp
import TierTree.Proofs.Policy.Registry

/-!
What loading a table comes to. A table is put in force just when it is well formed. The
registry then has its entries, in the order of their numbers, and each question to it, by
number, by name or for the default, is answered by the one entry that it is about.
-/

namespace TierTree

namespace Text
variable {drop : Char → Bool} {cs : List Char} {text : String}

theorem stripBoth_eq_nil_iff : stripBoth drop cs = [] ↔ ∀ c ∈ cs, drop c = true := by
  rw [stripBoth, List.reverse_eq_nil_iff, List.dropWhile_eq_nil_iff]
  constructor
  · intro hRest c hMem
    rw [← List.takeWhile_append_dropWhile (p := drop) (l := cs), List.mem_append] at hMem
    rcases hMem with hMem | hMem
    · exact List.mem_takeWhile_imp hMem
    · exact hRest c (List.mem_reverse.mpr hMem)
  · intro hAll c hMem
    exact hAll c ((List.dropWhile_sublist drop).subset (List.mem_reverse.mp hMem))

/-- Trimming leaves nothing of a text that is white space all through. -/
theorem trim_eq_empty_iff : trim text = "" ↔ text.toList.all isBlank = true := by
  rw [trim, String.ofList_eq_empty_iff, stripBoth_eq_nil_iff, List.all_eq_true]

end Text

/-- A table that may be put in force. -/
@[mk_iff]
structure PolicyTable.WellFormed (t : PolicyTable) : Prop where
  nonempty : t.policies ≠ []
  numbered : ∀ p ∈ t.policies, 1 ≤ p.id.raw.toNat ∧ p.id.raw.toNat ≤ 15
  numbers : (t.policies.map (·.id)).Nodup
  named : ∀ p ∈ t.policies, p.name.toList.all Text.isBlank = false
  names : t.policies.Pairwise fun p q => t.matching.same p.name q.name = false
  placed : ∀ p ∈ t.policies, p.media ≠ []
  standard : ∃ name ∈ t.defaultName, ∃ p ∈ t.policies, t.matching.same p.name name = true

instance (t : PolicyTable) : Decidable t.WellFormed :=
  decidable_of_iff' _ t.wellFormed_iff

theorem Policy.fit_iff {p : Policy} : p.Fit ↔ (1 ≤ p.id.raw.toNat ∧ p.id.raw.toNat ≤ 15) ∧
    p.name.toList.all Text.isBlank = false ∧ p.media ≠ [] := by
  have hExplicit : p.id.isExplicit = true ↔ 1 ≤ p.id.raw.toNat ∧ p.id.raw.toNat ≤ 15 := by
    rw [PolicyId.isExplicit, Bool.and_eq_true, decide_eq_true_iff, decide_eq_true_iff]
    rfl
  have hNamed : Text.trim p.name ≠ "" ↔ p.name.toList.all Text.isBlank = false := by
    rw [ne_eq, Text.trim_eq_empty_iff, Bool.not_eq_true]
  rw [← hExplicit, ← hNamed]
  constructor
  · intro h
    exact ⟨h.explicit, h.named, h.placed⟩
  · rintro ⟨hId, hName, hMedia⟩
    exact ⟨hId, hName, hMedia⟩

namespace Registry
variable {t : PolicyTable} {r : Registry} {p q : Policy} {name : String}

/-- Entries are apart when their numbers are and their names are. -/
theorem pairwise_apart_iff {matching : NameMatching} {entries : List Policy} :
    entries.Pairwise (Apart matching) ↔ (entries.map (·.id)).Nodup ∧
      entries.Pairwise fun p q => matching.same p.name q.name = false := by
  rw [List.Nodup, List.pairwise_map, ← List.pairwise_and_iff]
  rfl

/-- A table is put in force just when it is well formed. -/
theorem exists_load_iff : (∃ r, load t = .ok r) ↔ t.WellFormed := by
  constructor
  · rintro ⟨r, hLoad⟩
    have h := load_eq_ok_iff.mp hLoad
    have hFit := fun p hMem => Policy.fit_iff.mp (h.fit p hMem)
    obtain ⟨hNumbers, hNames⟩ := pairwise_apart_iff.mp h.apart
    obtain ⟨name, hName, p, hFound, _⟩ := h.standard
    obtain ⟨hMem, hSame⟩ := NameMatching.named_of_find? hFound
    exact
      { nonempty := h.nonempty
        numbered := fun p hMem => (hFit p hMem).1
        numbers := hNumbers
        named := fun p hMem => (hFit p hMem).2.1
        names := hNames
        placed := fun p hMem => (hFit p hMem).2.2
        standard := ⟨name, hName, p, hMem, hSame⟩ }
  · intro h
    obtain ⟨name, hName, q, hMem, hSame⟩ := h.standard
    obtain ⟨p, hFound⟩ := Option.isSome_iff_exists.mp
      (List.find?_isSome (p := (t.matching.same ·.name name)) |>.mpr ⟨q, hMem, hSame⟩)
    have hRegistered := isSome_get?_byNumber (NameMatching.named_of_find? hFound).1
    refine ⟨⟨byNumber t.policies, p.id, t.matching, hRegistered⟩, load_eq_ok_iff.mpr ?_⟩
    exact
      { nonempty := h.nonempty
        fit := fun p hMem => Policy.fit_iff.mpr ⟨h.numbered p hMem, h.named p hMem, h.placed p hMem⟩
        apart := pairwise_apart_iff.mpr ⟨h.numbers, h.names⟩
        standard := ⟨name, hName, p, hFound, rfl⟩
        byId := rfl
        matching := rfl }

/-- The policies in force are the ones that some number is bound to. -/
theorem mem_policies_iff : p ∈ r.policies ↔ ∃ id, r.policy? id = some p := by
  simp only [policies, policy?, SortedMap.values, List.mem_map, ← SortedMap.mem_entries_iff]
  constructor
  · rintro ⟨⟨id, p⟩, hMem, rfl⟩
    exact ⟨id, hMem⟩
  · rintro ⟨id, hMem⟩
    exact ⟨_, hMem, rfl⟩

namespace Loads
variable (h : Loads t r)
include h

theorem mem_policies_iff : p ∈ r.policies ↔ p ∈ t.policies := by
  simp only [Registry.mem_policies_iff, h.policy?_eq_some_iff]
  exact ⟨fun ⟨_, hMem, _⟩ => hMem, fun hMem => ⟨_, hMem, rfl⟩⟩

/-- Policies are listed in the order of their numbers. -/
theorem policies_ascending :
    r.policies.Pairwise fun p q => p.id.raw.toNat < q.id.raw.toNat := by
  have hNumber : ∀ e ∈ r.byId.entries, e.2.id = e.1 := fun e hMem =>
    (h.policy?_eq_some_iff.mp (SortedMap.mem_entries_iff.mp hMem)).2
  rw [policies, SortedMap.values, List.pairwise_map]
  refine r.byId.ascending.imp_of_mem fun {e f} hE hF hLess => ?_
  rw [hNumber e hE, hNumber f hF]
  exact UInt8.lt_iff_toNat_lt.mp hLess

theorem policies_perm : r.policies.Perm t.policies := by
  have hListed : r.policies.Nodup := h.policies_ascending.imp fun {p q} hLess hSame => by
    rw [hSame] at hLess
    exact Nat.lt_irrefl _ hLess
  have hEntries : t.policies.Nodup := List.Nodup.of_map _ h.nodup_ids
  exact (List.perm_ext_iff_of_nodup hListed hEntries).mpr fun _ => h.mem_policies_iff

/-- A name is answered by the one entry that has it. -/
theorem policyByName_eq_ok_iff : r.policyByName name = .ok p ↔
    p ∈ t.policies ∧ t.matching.same p.name name = true := by
  rw [policyByName, h.matching, ← h.mem_policies_iff]
  cases hFound : r.policies.find? (t.matching.same ·.name name) with
  | none =>
      have hNone := List.find?_eq_none.mp hFound
      exact ⟨nofun, fun ⟨hMem, hSame⟩ => absurd hSame (hNone p hMem)⟩
  | some q =>
      obtain ⟨hMem, hSame⟩ := NameMatching.named_of_find? hFound
      simp only [Except.ok.injEq]
      constructor
      · rintro rfl
        exact ⟨hMem, hSame⟩
      · rintro ⟨hOther, hNamed⟩
        exact h.eq_of_same_name (h.mem_policies_iff.mp hMem) (h.mem_policies_iff.mp hOther)
          hSame hNamed

theorem policyByName_eq_error_iff {u : UnknownPolicy} : r.policyByName name = .error u ↔
    u = ⟨name⟩ ∧ ∀ p ∈ t.policies, t.matching.same p.name name = false := by
  cases hFound : r.policies.find? (t.matching.same ·.name name) with
  | none =>
      have hNone : ∀ p ∈ t.policies, t.matching.same p.name name = false := fun p hMem => by
        simpa using List.find?_eq_none.mp hFound p (h.mem_policies_iff.mpr hMem)
      simp only [policyByName, h.matching, hFound, Except.error.injEq]
      exact ⟨fun hSame => ⟨hSame.symm, hNone⟩, fun hSame => hSame.1.symm⟩
  | some p =>
      obtain ⟨hMem, hSame⟩ := NameMatching.named_of_find? hFound
      simp only [policyByName, h.matching, hFound, reduceCtorEq, false_iff, not_and]
      intro _ hNone
      cases (hNone p (h.mem_policies_iff.mp hMem)).symm.trans hSame

end Loads

/-- The answers of a registry in which the entries of a table are in force. -/
structure Serves (r : Registry) (t : PolicyTable) : Prop where
  entries : r.policies.Perm t.policies
  ascending : r.policies.Pairwise fun p q => p.id.raw.toNat < q.id.raw.toNat
  number : ∀ id p, r.policy? id = some p ↔ p ∈ t.policies ∧ p.id = id
  known : ∀ id, r.contains id = true ↔ ∃ p ∈ t.policies, p.id = id
  sole : ∀ name, ∀ p ∈ t.policies, ∀ q ∈ t.policies, t.matching.same p.name name = true →
    t.matching.same q.name name = true → p = q
  name : ∀ name p, r.policyByName name = .ok p ↔
    p ∈ t.policies ∧ t.matching.same p.name name = true
  unknown : ∀ name, r.policyByName name = .error ⟨name⟩ ↔
    ∀ p ∈ t.policies, t.matching.same p.name name = false
  standard : ∃ name, t.defaultName = some name ∧ ∃ p ∈ t.policies,
    t.matching.same p.name name = true ∧ r.policy? r.defaultId = some p ∧ r.defaultPolicy = p

theorem Loads.serves (h : Loads t r) : r.Serves t where
  entries := h.policies_perm
  ascending := h.policies_ascending
  number _ _ := h.policy?_eq_some_iff
  known id := by
    simp only [contains, Option.isSome_iff_exists, h.policy?_eq_some_iff]
  sole _ _ hLeft _ hRight hLeftName hRightName :=
    h.eq_of_same_name hLeft hRight hLeftName hRightName
  name _ _ := h.policyByName_eq_ok_iff
  unknown _ := h.policyByName_eq_error_iff.trans (and_iff_right rfl)
  standard := h.exists_default

/-- A table is put in force just when it is well formed, and what is in force then is
this table. -/
theorem load_wellFormed_and_serves (t : PolicyTable) :
    ((∃ r, load t = .ok r) ↔ t.WellFormed) ∧ ∀ r, load t = .ok r → r.Serves t :=
  ⟨exists_load_iff, fun _ hLoad => (load_eq_ok_iff.mp hLoad).serves⟩

/-- Names that differ in their case only are two names under exact matching, and one name
twice otherwise. -/
theorem load_wellFormed_and_serves_two_cases :
    let cold : Policy := ⟨⟨15⟩, "COLD", [.archive], [], []⟩
    let cool : Policy := ⟨⟨1⟩, "cold", [.ramDisk, .disk], [.ssd], []⟩
    let t : PolicyTable := ⟨some "cold", .exact, [cold, cool]⟩
    (∃ r, load t = .ok r ∧ r.Serves t ∧ r.policies = [cool, cold] ∧ r.defaultPolicy = cool ∧
      r.policyByName "COLD" = .ok cold ∧ r.policyByName "Cold" = .error ⟨"Cold"⟩) ∧
    ¬ ∃ r, load { t with matching := .ignoringAsciiCase } = .ok r := by
  intro cold cool t
  constructor
  · obtain ⟨r, hLoad⟩ : ∃ r, load t = .ok r :=
      (load_wellFormed_and_serves t).1.mpr (by decide)
    have h := (load_wellFormed_and_serves t).2 r hLoad
    have hList : r.policies = [cool, cold] :=
      (h.entries.trans (.swap ..)).eq_of_pairwise (fun _ _ _ _ hLess hMore => by omega)
        h.ascending (by decide)
    obtain ⟨_, hName, p, hMem, hSame, _, hDefault⟩ := h.standard
    cases hName
    have hCool : p = cool := h.sole _ _ hMem _ (by decide) hSame (by decide)
    exact ⟨r, hLoad, h, hList, hDefault.trans hCool, (h.name _ _).mpr (by decide),
      (h.unknown _).mpr (by decide)⟩
  · intro hLoad
    have h := (load_wellFormed_and_serves _).1.mp hLoad
    exact absurd h.names (by decide)

end Registry

end TierTree
