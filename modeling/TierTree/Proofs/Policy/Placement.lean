import TierTree.Policy.Placement
import TierTree.Proofs.Policy.Registry

/-!
Where replicas are placed. The policy is the one with the effective number, or else the
default of the table. Each replica has a medium of this policy, and one whose medium is
not available goes to the first creation fallback that is, so that replicas are lost
only where there is none.
-/

namespace TierTree

section Choice
variable {media unavailable : List Medium} {m : Medium} {p : Policy} {replication : UInt16}

/-- The first of some media that is available. -/
def FirstOutside (media unavailable : List Medium) (m : Medium) : Prop :=
  m ∉ unavailable ∧
    ∃ before after, media = before ++ m :: after ∧ ∀ other ∈ before, other ∈ unavailable

theorem Policy.firstAvailable_eq_some_iff :
    firstAvailable media unavailable = some m ↔ FirstOutside media unavailable m := by
  simp only [firstAvailable, FirstOutside, List.find?_eq_some_iff_append, decide_eq_true_eq,
    Bool.not_eq_true', decide_eq_false_iff_not, not_not]

theorem Policy.firstAvailable_eq_none_iff :
    firstAvailable media unavailable = none ↔ ∀ m ∈ media, m ∈ unavailable := by
  simp only [firstAvailable, List.find?_eq_none, decide_eq_true_eq, not_not]

/-- The media of replicas in order: each takes the next medium of the policy, and the
last one once they are used up. -/
structure Policy.Spreads (p : Policy) (replication : UInt16) (seq : List Medium) : Prop where
  length : seq.length = replication.toNat
  each : ∀ i < replication.toNat, seq[i]? = p.media[min i (p.media.length - 1)]?

theorem Policy.Spreads.unique {seq other : List Medium} (h : p.Spreads replication seq)
    (hOther : p.Spreads replication other) : seq = other := by
  refine List.ext_getElem? fun i => ?_
  by_cases hIndex : i < replication.toNat
  · rw [h.each i hIndex, hOther.each i hIndex]
  · rw [List.getElem?_eq_none (h.length ▸ Nat.le_of_not_lt hIndex),
      List.getElem?_eq_none (hOther.length ▸ Nat.le_of_not_lt hIndex)]

/-- A policy with media chooses one for each replica. -/
theorem Policy.spreads_choose (hMedia : p.media ≠ []) (replication : UInt16) :
    p.Spreads replication (p.choose replication) := by
  have hSome := List.length_pos_iff.mpr hMedia
  have hAt (i : Nat) : min i (p.media.length - 1) < p.media.length := by omega
  let medium (i : Nat) : Medium := p.media.get ⟨_, hAt i⟩
  have hMedium (i : Nat) : p.media[min i (p.media.length - 1)]? = some (medium i) :=
    List.getElem?_eq_getElem (hAt i)
  have hChoose : p.choose replication = (List.range replication.toNat).map medium := by
    simp only [choose, hMedium, List.filterMap_eq_map']
  constructor
  case length => simp [hChoose]
  case each =>
    intro i hIndex
    simp [hChoose, hMedium, hIndex]

end Choice

/-- The policy that replicas with an effective policy are placed by, and whether it is
only the default of the table. -/
inductive PolicyTable.StandsFor (t : PolicyTable) (effective : PolicyId) : Policy → Bool → Prop
  | registered {p : Policy} : p ∈ t.policies → p.id = effective → StandsFor t effective p false
  | standard {p : Policy} {name : String} : (∀ q ∈ t.policies, q.id ≠ effective) →
      p ∈ t.policies → t.defaultName = some name → t.matching.same p.name name = true →
      StandsFor t effective p true

namespace Placement

variable {t : PolicyTable} {r : Registry} {effective : PolicyId} {p : Policy} {defaulted : Bool}

/-- Some policy of a table in force stands for any effective one. -/
theorem exists_standsFor (h : Registry.Loads t r) (effective : PolicyId) :
    ∃ p defaulted, t.StandsFor effective p defaulted := by
  cases hPolicy : r.policy? effective with
  | some p =>
      obtain ⟨hMem, hId⟩ := h.policy?_eq_some_iff.mp hPolicy
      exact ⟨p, false, .registered hMem hId⟩
  | none =>
      obtain ⟨name, hName, _⟩ := h.standard
      obtain ⟨hMem, hSame⟩ := (h.eq_defaultPolicy_iff hName).mp rfl
      exact ⟨_, true, .standard (h.policy?_eq_none_iff.mp hPolicy) hMem hName hSame⟩

theorem resolve_of_standsFor (h : Registry.Loads t r) (hStands : t.StandsFor effective p defaulted)
    (replication : UInt16) (unavailable : List Medium) :
    resolve r effective replication unavailable =
      byPolicy p defaulted replication unavailable := by
  cases hStands with
  | registered hMem hId => rw [resolve, h.policy?_eq_some_iff.mpr ⟨hMem, hId⟩]
  | standard hOther hMem hName hSame =>
      rw [resolve, h.policy?_eq_none_iff.mpr hOther,
        (h.eq_defaultPolicy_iff hName).mpr ⟨hMem, hSame⟩]

theorem mem_of_standsFor (h : t.StandsFor effective p defaulted) : p ∈ t.policies := by
  cases h <;> assumption

/-- Replicas that should be on the media of `seq` are placed by a policy: no medium that
is not available is used, and only replicas on such a medium move, to the first creation
fallback that is available, or nowhere if there is none. -/
structure Places (placed : Placement) (p : Policy) (defaulted : Bool)
    (seq unavailable : List Medium) : Prop where
  policy : placed.policy = p.id
  policyName : placed.policyName = p.name
  defaulted : placed.defaulted = defaulted
  available : ∀ m ∈ placed.media, m ∉ unavailable
  moved : ∀ m, FirstOutside p.creationFallbacks unavailable m →
    placed.media.length = seq.length ∧
      placed.media = seq.map fun other => if other ∈ unavailable then m else other
  lost : (∀ m ∈ p.creationFallbacks, m ∈ unavailable) →
    placed.media = seq.filter (· ∉ unavailable)
  creation : ∀ m, placed.creationFallback = some m ↔
    FirstOutside p.creationFallbacks unavailable m
  noCreation : placed.creationFallback = none ↔ ∀ m ∈ p.creationFallbacks, m ∈ unavailable
  replication : ∀ m, placed.replicationFallback = some m ↔
    FirstOutside p.replicationFallbacks unavailable m
  noReplication : placed.replicationFallback = none ↔
    ∀ m ∈ p.replicationFallbacks, m ∈ unavailable

/-- Media that are not available are replaced, or left out if nothing can replace
them. -/
theorem byPolicy_places (p : Policy) (defaulted : Bool) (replication : UInt16)
    (unavailable : List Medium) :
    (byPolicy p defaulted replication unavailable).Places p defaulted (p.choose replication)
      unavailable where
  policy := rfl
  policyName := rfl
  defaulted := rfl
  available m hMem := by
    obtain ⟨other, _, hKept⟩ := List.mem_filterMap.mp hMem
    split at hKept
    · exact (Policy.firstAvailable_eq_some_iff.mp hKept).1
    next hAvailable =>
      cases hKept
      exact hAvailable
  moved m hFirst := by
    have hFallback : p.creationFallback unavailable = some m :=
      Policy.firstAvailable_eq_some_iff.mpr hFirst
    have hMedia : (byPolicy p defaulted replication unavailable).media =
        (p.choose replication).map fun other => if other ∈ unavailable then m else other := by
      simp only [byPolicy, hFallback, ← apply_ite some, List.filterMap_eq_map']
    exact ⟨by rw [hMedia, List.length_map], hMedia⟩
  lost hNone := by
    have hFallback : p.creationFallback unavailable = none :=
      Policy.firstAvailable_eq_none_iff.mpr hNone
    simp only [byPolicy, hFallback, ← List.filterMap_eq_filter]
    congr 1
    funext other
    by_cases h : other ∈ unavailable <;> simp [Option.guard, h]
  creation _ := Policy.firstAvailable_eq_some_iff
  noCreation := Policy.firstAvailable_eq_none_iff
  replication _ := Policy.firstAvailable_eq_some_iff
  noReplication := Policy.firstAvailable_eq_none_iff

/-- Whatever the effective policy, one of the table stands for it, and as many replicas as
are asked for are placed by it. -/
theorem resolve_places (hLoad : Registry.load t = .ok r) (effective : PolicyId)
    (replication : UInt16) (unavailable : List Medium) :
    (∃ p defaulted, t.StandsFor effective p defaulted) ∧
    ∀ p defaulted, t.StandsFor effective p defaulted →
      ∃ seq, p.Spreads replication seq ∧
        (resolve r effective replication unavailable).Places p defaulted seq unavailable := by
  have h := Registry.load_eq_ok_iff.mp hLoad
  refine ⟨exists_standsFor h effective, fun p defaulted hStands => ?_⟩
  have hMedia : p.media ≠ [] := (h.fit p (mem_of_standsFor hStands)).placed
  rw [resolve_of_standsFor h hStands]
  exact ⟨p.choose replication, Policy.spreads_choose hMedia replication, byPolicy_places ..⟩

/-- Without archives the replicas of a warm file are all on disks, and without disks the
default policy has no place for a replica. -/
theorem resolve_places_warm_and_default :
    let warm : Policy :=
      ⟨⟨8⟩, "WARM", [.disk, .archive], [.disk, .archive], [.disk, .archive]⟩
    let hot : Policy := ⟨⟨12⟩, "HOT", [.disk], [], [.archive]⟩
    ∃ r, Registry.load .builtin = .ok r ∧
      (resolve r ⟨8⟩ 3 [.archive]).Places warm false [.disk, .archive, .archive] [.archive] ∧
      (resolve r ⟨8⟩ 3 [.archive]).media = [.disk, .disk, .disk] ∧
      (resolve r ⟨7⟩ 3 [.disk]).Places hot true [.disk, .disk, .disk] [.disk] ∧
      (resolve r ⟨7⟩ 3 [.disk]).media = [] := by
  intro warm hot
  obtain ⟨r, hLoad⟩ : ∃ r, Registry.load .builtin = .ok r := ⟨_, rfl⟩
  have hWarm : PolicyTable.builtin.StandsFor ⟨8⟩ warm false := .registered (by decide) rfl
  have hHot : PolicyTable.builtin.StandsFor ⟨7⟩ hot true :=
    .standard (by decide) (by decide) rfl (by decide)
  obtain ⟨seq, hSeq, hPlaced⟩ := (resolve_places hLoad ⟨8⟩ 3 [.archive]).2 _ _ hWarm
  obtain ⟨seq', hSeq', hPlaced'⟩ := (resolve_places hLoad ⟨7⟩ 3 [.disk]).2 _ _ hHot
  obtain rfl : seq = [.disk, .archive, .archive] :=
    hSeq.unique (Policy.spreads_choose (by decide) 3)
  obtain rfl : seq' = [.disk, .disk, .disk] :=
    hSeq'.unique (Policy.spreads_choose (by decide) 3)
  exact ⟨r, hLoad, hPlaced, (hPlaced.moved .disk ⟨by decide, [], _, rfl, nofun⟩).2, hPlaced',
    hPlaced'.lost nofun⟩

end Placement

end TierTree
