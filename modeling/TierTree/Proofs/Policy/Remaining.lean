import Mathlib.Data.List.Count
import Mathlib.Data.List.Perm.Basic
import TierTree.Proofs.Policy.Lookup
import TierTree.Proofs.Policy.Placement

/-!
The media still missing when replicas exist already. A medium that is present meets the
earliest place that asks for it and is not met yet, and what is missing are the places that
are left, in their order. Media that no place asks for change nothing.
-/

namespace TierTree

namespace Medium

/-- The places of a sequence that `present` does not meet. Of the places that ask for a
medium, the first ones are met, one for each time that it is present. -/
def unmet (present seq : List Medium) : List Medium :=
  (seq.zipIdx.filter fun place =>
    present.count place.1 ≤ (seq.take place.2).count place.1).map (·.1)

/-- The first place is met when its medium is present, and takes it away from the places
behind it. -/
theorem unmet_cons (present : List Medium) (m : Medium) (seq : List Medium) :
    unmet present (m :: seq) =
      if m ∈ present then unmet (present.erase m) seq else m :: unmet present seq := by
  have hBehind : ∀ place : Medium × Nat,
      (present.count place.1 ≤ ((m :: seq).take (place.2 + 1)).count place.1) =
        ((present.erase m).count place.1 ≤ (seq.take place.2).count place.1) := fun place => by
    rw [List.take_succ_cons, List.count_cons, List.count_erase, Nat.sub_le_iff_le_add]
  have hRest : ((seq.zipIdx.map (Prod.map id (· + 1))).filter fun place =>
      present.count place.1 ≤ ((m :: seq).take place.2).count place.1).map (·.1) =
        unmet (present.erase m) seq := by
    simp only [List.filter_map, List.map_map, Function.comp_def, Prod.map_fst, Prod.map_snd,
      id_eq, hBehind, unmet]
  rw [unmet, List.zipIdx_cons', List.filter_cons]
  by_cases hPresent : m ∈ present
  · have hMet : ¬ present.count m ≤ 0 := by
      rw [Nat.not_le]
      exact List.count_pos_iff.mpr hPresent
    simp [hMet, hPresent, hRest]
  · have hOpen : present.count m = 0 := List.count_eq_zero.mpr hPresent
    rw [List.erase_of_not_mem hPresent] at hRest
    simp [hOpen, hPresent, hRest]

/-- Taking out what is present leaves the places that are not met. -/
theorem diff_eq_unmet (present seq : List Medium) : seq.diff present = unmet present seq := by
  induction seq generalizing present with
  | nil => simp [unmet]
  | cons m rest ih => rw [List.cons_diff, unmet_cons, ih, ih]

/-- The front of a list taken out of it leaves its back. -/
theorem append_diff_front (front back : List Medium) : (front ++ back).diff front = back := by
  induction front with
  | nil => rfl
  | cons m rest ih => rw [List.cons_append, List.diff_cons, List.erase_cons_head, ih]

end Medium

namespace Policy
variable {t : PolicyTable} {r : Registry} {p : Policy} {replication : UInt16}
  {seq present : List Medium}

theorem remaining_eq_diff (p : Policy) (replication : UInt16) (present : List Medium) :
    p.remaining replication present = (p.choose replication).diff present :=
  (List.diff_eq_foldl _ _).symm

/-- What is missing of the media `seq` of replicas when replicas on some media are
present. -/
structure Completes (p : Policy) (replication : UInt16) (seq present : List Medium) : Prop where
  count : ∀ m, (p.remaining replication present).count m = seq.count m - present.count m
  order : p.remaining replication present = Medium.unmet present seq
  reordered : ∀ other : List Medium, other.Perm present →
    p.remaining replication other = p.remaining replication present
  front : ∀ k, present = seq.take k → p.remaining replication present = seq.drop k ∧
    (p.remaining replication present).length = replication.toNat - k

theorem Spreads.completes (hSpreads : p.Spreads replication seq)
    (hChoose : p.choose replication = seq) (present : List Medium) :
    p.Completes replication seq present where
  count m := by rw [remaining_eq_diff, hChoose, List.count_diff]
  order := by rw [remaining_eq_diff, hChoose, Medium.diff_eq_unmet]
  reordered other hPerm := by
    rw [remaining_eq_diff, remaining_eq_diff, hPerm.diff_left]
  front k hFront := by
    have hBack := Medium.append_diff_front (seq.take k) (seq.drop k)
    rw [List.take_append_drop] at hBack
    have hRest : p.remaining replication present = seq.drop k := by
      rw [remaining_eq_diff, hChoose, hFront, hBack]
    exact ⟨hRest, by rw [hRest, List.length_drop, hSpreads.length]⟩

/-- Whatever is present, what a policy in force still asks for completes the media that it
chooses. -/
theorem remaining_completes (hLoad : Registry.load t = .ok r) (hMem : p ∈ r.policies)
    (replication : UInt16) :
    ∃ seq, p.Spreads replication seq ∧ p.choose replication = seq ∧
      ∀ present, p.Completes replication seq present := by
  have h := Registry.load_eq_ok_iff.mp hLoad
  have hMedia : p.media ≠ [] := (h.fit p (h.mem_policies_iff.mp hMem)).placed
  have hSpreads := spreads_choose hMedia replication
  exact ⟨_, hSpreads, rfl, hSpreads.completes rfl⟩

/-- Of five replicas with one on an SSD, two that are present on disks meet the first and the
third, and one in memory meets none. -/
theorem remaining_completes_two_disks :
    let mixed : Policy := ⟨⟨5⟩, "MIXED", [.disk, .ssd, .disk], [], []⟩
    let t : PolicyTable := ⟨some "mixed", .ignoringAsciiCase, [mixed]⟩
    let seq : List Medium := [.disk, .ssd, .disk, .disk, .disk]
    ∃ r, Registry.load t = .ok r ∧ mixed ∈ r.policies ∧
      mixed.Completes 5 seq [.disk, .ramDisk, .disk] ∧
      mixed.remaining 5 [.disk, .ramDisk, .disk] = [.ssd, .disk, .disk] ∧
      mixed.Completes 5 seq [.disk, .ssd] ∧
      mixed.remaining 5 [.disk, .ssd] = [.disk, .disk, .disk] := by
  intro mixed t seq
  obtain ⟨r, hLoad⟩ : ∃ r, Registry.load t = .ok r := Registry.exists_load_iff.mpr (by decide)
  have hMem : mixed ∈ r.policies :=
    (Registry.load_eq_ok_iff.mp hLoad).mem_policies_iff.mpr (by decide)
  obtain ⟨other, hSpreads, _, hCompletes⟩ := remaining_completes hLoad hMem 5
  obtain rfl : other = seq := hSpreads.unique (spreads_choose (by decide) 5)
  have hDisks := hCompletes [.disk, .ramDisk, .disk]
  have hFirst := hCompletes [.disk, .ssd]
  exact ⟨r, hLoad, hMem, hDisks, hDisks.order.trans (by decide), hFirst, (hFirst.front 2 rfl).1⟩

end Policy

end TierTree
