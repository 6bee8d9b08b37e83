import Mathlib.Data.List.Infix
import Mathlib.Data.List.Induction
import TierTree.Proofs.Tree.Follow
import TierTree.Proofs.Tree.Layout
import TierTree.Proofs.Tree.Run

/-!
Inheritance of policies. The policy in force at the end of a path is the one of
the last node on the path that has a policy of its own, though the walk that
finds it goes up by parents while the path goes down by entries.
-/

namespace TierTree

namespace View

variable {v : View} {top id : NodeId} {n : Node} {inherited : PolicyId} {names : List String}

/-- The policy of its own that the node at the end of `names` has. -/
def explicitAt (v : View) (top : NodeId) (names : List String) : Option PolicyId := do
  let id ← v.reach top names
  let n ← v id
  if n.policy = .unspecified then none else some n.policy

/-- The policy of the longest front of `names` whose node has one of its own,
and `inherited` where there is none. -/
def nearest (v : View) (top : NodeId) (inherited : PolicyId) (names : List String) : PolicyId :=
  (names.inits.reverse.findSome? (v.explicitAt top)).getD inherited

theorem explicitAt_of_leads (way : v.Leads top names id) (seen : v id = some n) :
    v.explicitAt top names = if n.policy = .unspecified then none else some n.policy := by
  rw [explicitAt, reach_eq_some_iff.mpr way]
  simp only [Option.bind_eq_bind, Option.bind_some, seen]

/-- A node without a policy of its own takes over what is in force before it. -/
theorem nearest_snoc (name : String) :
    v.nearest top inherited (names ++ [name]) =
      (v.explicitAt top (names ++ [name])).getD (v.nearest top inherited names) := by
  have hInits : (names ++ [name]).inits = names.inits ++ [names ++ [name]] := by
    rw [List.inits_append]
    rfl
  rw [nearest, hInits, List.reverse_append, List.reverse_singleton, List.singleton_append,
    List.findSome?_cons]
  cases v.explicitAt top (names ++ [name]) with
  | none => rfl
  | some policy => rfl

end View

namespace Tree

variable {t : Tree} {layer : Layer} {id : NodeId} {n : Node} {names : List String}

/-- Two walks that both come to an answer come to the same. -/
theorem policyWalk_agree {steps more : Nat} {p q : PolicyId}
    (first : t.policyWalk layer steps id = .ok p) (second : t.policyWalk layer more id = .ok q) :
    p = q := by
  induction steps generalizing more id with
  | zero => cases first
  | succ steps ih =>
      cases more with
      | zero => cases second
      | succ more =>
          rw [policyWalk] at first second
          split at first
          next answer hStep =>
            rw [hStep] at second
            cases first
            cases second
            rfl
          next parent hStep =>
            rw [hStep] at second
            exact ih first second

/-- The walk up from the end of a way finds the policy nearest to it, and asks
no more nodes than there are on the way. -/
theorem policyWalk_leads (h : (t.view layer).Hierarchy)
    (way : (t.view layer).Leads layer.top names id) (seen : t.view layer id = some n) :
    t.policyWalk layer (names.length + 1) id =
      .ok ((t.view layer).nearest layer.top layer.inherited names) := by
  induction names using List.reverseRecOn generalizing id n with
  | nil =>
      cases way
      have hHere := View.explicitAt_of_leads (.here layer.top) seen
      by_cases silent : n.policy = .unspecified
      · rw [if_pos silent] at hHere
        simp [policyWalk, policyStep_top h seen silent, View.nearest, hHere]
      · rw [if_neg silent] at hHere
        simp [policyWalk, policyStep_own seen silent, View.nearest, hHere]
  | append_singleton names name ih =>
      have hHere := View.explicitAt_of_leads way seen
      rw [View.nearest_snoc, hHere, List.length_append, List.length_singleton, policyWalk]
      by_cases silent : n.policy = .unspecified
      · rcases h.leads_last way seen with ⟨hNil, _⟩ | ⟨before, parent, hNames, hBefore, link⟩
        · exact absurd hNil (List.append_ne_nil_of_right_ne_nil _ (List.cons_ne_nil _ _))
        obtain ⟨rfl, -⟩ := List.append_inj' hNames rfl
        obtain ⟨hLt, pn, hParent, _⟩ := h.up_of_parent seen link
        have inside : id ≠ layer.top := by
          rintro rfl
          exact h.not_leads_of_lt hLt _ hBefore
        rw [if_pos silent, policyStep_above seen silent inside link]
        exact ih hBefore hParent
      · rw [if_neg silent, policyStep_own seen silent]
        rfl

/-- The policy in force at the end of a way is the one nearest to it. -/
theorem effectivePolicy_leads (h : (t.view layer).Hierarchy)
    (way : (t.view layer).Leads layer.top names id) (seen : t.view layer id = some n) :
    t.effectivePolicy id layer =
      .ok ((t.view layer).nearest layer.top layer.inherited names) := by
  obtain ⟨policy, hPolicy, _⟩ := effectivePolicy_spec h ⟨names, way⟩ seen
  rw [hPolicy, policyWalk_agree hPolicy (policyWalk_leads h way seen)]

/-- A path that leads into what a snapshot shows enters it at the first
`.snapshot` and goes on below its directory. -/
theorem frozen_of_follow {path : String} {dest : NodeId} {dn : Node} {names : List String}
    (seen : t.view .live id = some n) (hLayer : layer ≠ .live)
    (h : t.follow path id .live n names = .ok (.node dest layer dn)) :
    ∃ dir s below, names = dir ++ Path.snapshotDir :: s.name :: below ∧
      Path.snapshotDir ∉ dir ∧ s ∈ t.shelf.toList ∧ (t.view .live).Leads id dir s.root ∧
      layer = s.layer ∧ (t.view s.layer).Leads s.root below dest ∧
      t.view s.layer dest = some dn := by
  induction names generalizing id n with
  | nil =>
      simp only [follow, Except.ok.injEq, Resolved.node.injEq] at h
      exact absurd h.2.1.symm hLayer
  | cons component rest ih =>
      by_cases hSpecial : component = Path.snapshotDir
      · subst hSpecial
        obtain ⟨s, below, rfl, held, rfl, hEnd⟩ := snapshot_of_follow h
        exact ⟨[], s, below, rfl, List.not_mem_nil, held, .here _, hEnd⟩
      · obtain ⟨child, cn, hEntry, hSeen, hRest⟩ := entry_of_follow (.inl hSpecial) h
        obtain ⟨dir, s, below, rfl, outside, held, way, hEnd⟩ := ih hSeen hRest
        exact ⟨component :: dir, s, below, rfl, by simp [outside, Ne.symm hSpecial], held,
          .into seen hEntry way, hEnd⟩

/-- What is in force at the end of a path is the policy of the longest front of
`names` that has one, where the names go down from the top of a layer. The walk
that finds it asks no more nodes than there are names, and the top. -/
structure FindsNearest (t : Tree) (path : String) (id : NodeId) (layer : Layer)
    (names : List String) : Prop where
  answer : t.effectivePolicyOf path =
    .ok ((t.view layer).nearest layer.top layer.inherited names)
  steps : t.policyWalk layer (names.length + 1) id =
    .ok ((t.view layer).nearest layer.top layer.inherited names)

theorem findsNearest_of_leads (h : (t.view layer).Hierarchy) {path : String}
    (hResolve : t.resolve path = .ok (.node id layer n))
    (way : (t.view layer).Leads layer.top names id) (seen : t.view layer id = some n) :
    t.FindsNearest path id layer names := by
  constructor
  case answer =>
    rw [effectivePolicyOf, hResolve]
    simp only
    rw [effectivePolicy_leads h way seen, mapError_ok]
  case steps => exact policyWalk_leads h way seen

/-- The policy in force is the nearest one on the path. In every tree that edits
lead to, a path to a node of the live tree finds the policy of its longest front
with one, or none at all; a path into a snapshot finds the longest such front
below the directory of the snapshot, in what the snapshot shows, or else the
policy that the snapshot recorded as inherited. -/
theorem effective_policy_nearest {edits : List Edit} (hRun : new.run edits = .ok t) {path : String}
    (hSplit : Path.split path = .ok names) (hResolve : t.resolve path = .ok (.node id layer n)) :
    (Path.snapshotDir ∉ names ∧ layer = .live ∧ t.FindsNearest path id .live names) ∨
    ∃ dir s below, names = dir ++ Path.snapshotDir :: s.name :: below ∧
      Path.snapshotDir ∉ dir ∧ s ∈ t.shelf.toList ∧ (t.view .live).Leads .root dir s.root ∧
      layer = s.layer ∧ t.FindsNearest path id s.layer below := by
  have hSound := (run_sound new_sound hRun).1
  obtain ⟨r, hRoot, _⟩ := hSound.live.root
  have hFollow := hResolve
  rw [resolve_eq_follow hSplit hRoot] at hFollow
  by_cases hLive : layer = .live
  · subst hLive
    obtain ⟨way, seen, outside⟩ := leads_of_follow hRoot hFollow
    exact .inl ⟨outside, rfl, findsNearest_of_leads hSound.live hResolve way seen⟩
  · obtain ⟨dir, s, below, hNames, outside, held, way, rfl, wayBelow, seen⟩ :=
      frozen_of_follow hRoot hLive hFollow
    exact .inr ⟨dir, s, below, hNames, outside, held, way, rfl,
      findsNearest_of_leads (hSound.frozen s held) hResolve wayBelow seen⟩

/-- Below a snapshot the policy that was inherited when it was taken stays in
force after the directory it came from has been given another one. -/
theorem effective_policy_nearest_below_snapshot :
    ∃ t, new.run [.mkdirs "/a/b/c", .setPolicy "/a" ⟨12⟩, .createSnapshot "/a/b" "s",
        .setPolicy "/a" ⟨8⟩] = .ok t ∧
      Path.split "/a/b/.snapshot/s/c" = .ok ["a", "b", ".snapshot", "s", "c"] ∧
      t.resolve "/a/b/.snapshot/s/c" =
        .ok (.node ⟨4⟩ (.frozen ⟨3⟩ 0 ⟨12⟩) (.newDirectory "c" (some ⟨3⟩))) ∧
      t.FindsNearest "/a/b/.snapshot/s/c" ⟨4⟩ (.frozen ⟨3⟩ 0 ⟨12⟩) ["c"] ∧
      (t.view (.frozen ⟨3⟩ 0 ⟨12⟩)).nearest ⟨3⟩ ⟨12⟩ ["c"] = ⟨12⟩ := by
  obtain ⟨t, hRun, hResolve, hNearest⟩ : ∃ t,
      new.run [.mkdirs "/a/b/c", .setPolicy "/a" ⟨12⟩, .createSnapshot "/a/b" "s",
        .setPolicy "/a" ⟨8⟩] = .ok t ∧
      t.resolve "/a/b/.snapshot/s/c" =
        .ok (.node ⟨4⟩ (.frozen ⟨3⟩ 0 ⟨12⟩) (.newDirectory "c" (some ⟨3⟩))) ∧
      (t.view (.frozen ⟨3⟩ 0 ⟨12⟩)).nearest ⟨3⟩ ⟨12⟩ ["c"] = ⟨12⟩ :=
    ⟨_, rfl, by decide +kernel, by decide +kernel⟩
  have hSplit : Path.split "/a/b/.snapshot/s/c" = .ok ["a", "b", ".snapshot", "s", "c"] := rfl
  refine ⟨t, hRun, hSplit, hResolve, ?_, hNearest⟩
  rcases effective_policy_nearest hRun hSplit hResolve with
    ⟨_, hLive, _⟩ | ⟨dir, s, below, hNames, outside, _, _, hLayer, hFinds⟩
  · cases hLive
  · have hCut : ["a", "b"] ++ Path.snapshotDir :: ["s", "c"] =
        dir ++ Path.snapshotDir :: s.name :: below := hNames
    have hEnds := (List.append_cons_inj_of_notMem (by decide) (by decide)).mp hCut
    obtain rfl : ["c"] = below := (List.cons.inj hEnds.2.2).2
    exact hLayer ▸ hFinds

end Tree

end TierTree
