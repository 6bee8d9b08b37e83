import Mathlib.Data.List.Perm.Subperm
import TierTree.Proofs.Tree.Run
import TierTree.Tree.Image

/-!
What carrying out a plan uses up. A plan is never refused, so it fails only where
the numbers or the epochs run out, or where parents lead round in a circle. The
exact condition is given for trees of any origin; an image can hold a tree that
does not meet it.
-/

namespace TierTree

/-- How many nodes a plan makes. -/
def Plan.births : Plan → Nat
  | .mkdirs _ missing => missing.length
  | .createFile _ missing _ _ => missing.length + 1
  | _ => 0

/-- How often the clock ticks for a plan. -/
def Plan.ticks : Plan → Nat
  | .createSnapshot .. => 1
  | _ => 0

theorem successor_ok_iff {n : UInt64} :
    (∃ m, successor n = .ok m) ↔ n.toNat + 1 < UInt64.size := by
  unfold successor
  split
  next bound => simp [bound]
  next bound => simp [bound]

theorem NodeId.next_ok_iff {id : NodeId} :
    (∃ next, id.next = .ok next) ↔ id.raw.toNat + 1 < UInt64.size := by
  rw [← successor_ok_iff]
  unfold NodeId.next
  cases successor id.raw <;> simp [Except.map]

theorem NodeId.toNat_of_next {id next : NodeId} (h : id.next = .ok next) :
    next.raw.toNat = id.raw.toNat + 1 := by
  obtain ⟨raw, hRaw, rfl⟩ := map_eq_ok_iff.mp h
  exact toNat_of_successor hRaw

namespace Tree

variable {t added later : Tree} {layer : Layer} {id parent : NodeId} {n : Node}

section Climb

/-- Asking a node for the policy in force, and then its parents, leads past the
nodes `passed` to an answer. -/
inductive Climbs (t : Tree) (layer : Layer) : NodeId → List NodeId → PolicyId → Prop
  | answered {id : NodeId} {policy : PolicyId} (answer : t.policyStep layer id = .inl policy) :
      Climbs t layer id [] policy
  | past {id parent : NodeId} {passed : List NodeId} {policy : PolicyId}
      (ask : t.policyStep layer id = .inr parent) (further : Climbs t layer parent passed policy) :
      Climbs t layer id (id :: passed) policy

namespace Climbs

variable {passed other : List NodeId} {policy : PolicyId}

theorem deterministic {policy' : PolicyId} (first : t.Climbs layer id passed policy)
    (second : t.Climbs layer id other policy') : passed = other ∧ policy = policy' := by
  induction first generalizing other with
  | answered answer =>
      cases second with
      | answered answer' => exact ⟨rfl, Sum.inl.inj (answer.symm.trans answer')⟩
      | past ask => cases answer.symm.trans ask
  | past ask _ ih =>
      cases second with
      | answered answer => cases ask.symm.trans answer
      | past ask' further =>
          cases ask.symm.trans ask'
          obtain ⟨rfl, rfl⟩ := ih further
          exact ⟨rfl, rfl⟩

/-- A node that is passed has a climb of its own, which is no longer. -/
theorem of_mem (h : t.Climbs layer id passed policy) {j : NodeId} (hj : j ∈ passed) :
    ∃ rest, t.Climbs layer j rest policy ∧ rest.length ≤ passed.length := by
  induction h with
  | answered => cases hj
  | past ask further ih =>
      rcases List.mem_cons.mp hj with rfl | hj
      · exact ⟨_, .past ask further, Nat.le_refl _⟩
      · obtain ⟨rest, hRest, hLength⟩ := ih hj
        exact ⟨rest, hRest, Nat.le_succ_of_le hLength⟩

theorem nodup (h : t.Climbs layer id passed policy) : passed.Nodup := by
  induction h with
  | answered => exact List.nodup_nil
  | @past id _ passed _ ask further ih =>
      refine List.nodup_cons.mpr ⟨fun hBack => ?_, ih⟩
      -- coming back to a node would make its climb shorter than itself
      obtain ⟨rest, hRest, hLength⟩ := further.of_mem hBack
      obtain ⟨hSame, _⟩ := (Climbs.past ask further).deterministic hRest
      rw [← hSame, List.length_cons] at hLength
      omega

theorem mem_keys (h : t.Climbs layer id passed policy) : passed ⊆ t.timelines.keys := by
  induction h with
  | answered => exact List.nil_subset _
  | @past id _ _ _ ask _ ih =>
      refine List.cons_subset.mpr ⟨?_, ih⟩
      cases hSeen : t.view layer id with
      | none =>
          have hNone : t.node? id layer = none := hSeen
          simp [policyStep, hNone] at ask
      | some n => exact mem_keys_of_view hSeen

theorem policyWalk (h : t.Climbs layer id passed policy) {steps : Nat}
    (hSteps : passed.length < steps) : t.policyWalk layer steps id = .ok policy := by
  induction h generalizing steps with
  | answered answer =>
      cases steps with
      | zero => cases hSteps
      | succ steps => simp [Tree.policyWalk, answer]
  | past ask _ ih =>
      cases steps with
      | zero => cases hSteps
      | succ steps =>
          rw [List.length_cons] at hSteps
          rw [Tree.policyWalk, ask]
          exact ih (by omega)

end Climbs

theorem climbs_of_policyWalk {steps : Nat} {policy : PolicyId}
    (h : t.policyWalk layer steps id = .ok policy) : ∃ passed, t.Climbs layer id passed policy := by
  induction steps generalizing id with
  | zero => cases h
  | succ steps ih =>
      rw [policyWalk] at h
      split at h
      next answer hStep =>
        cases h
        exact ⟨[], .answered hStep⟩
      next parent hStep =>
        obtain ⟨passed, hClimb⟩ := ih h
        exact ⟨id :: passed, .past hStep hClimb⟩

/-- A climb that comes to an answer asks no node twice, so that the bound on the
walk never cuts it short. -/
theorem effectivePolicy_eq_ok_iff {policy : PolicyId} :
    t.effectivePolicy id layer = .ok policy ↔ ∃ passed, t.Climbs layer id passed policy := by
  constructor
  · exact climbs_of_policyWalk
  · rintro ⟨passed, hClimb⟩
    refine hClimb.policyWalk ?_
    have hLength := (hClimb.nodup.subperm hClimb.mem_keys).length_le
    rw [t.length_keys] at hLength
    omega

theorem policyWalk_error {steps : Nat} {f : Fault} (h : t.policyWalk layer steps id = .error f) :
    f = .endless := by
  induction steps generalizing id with
  | zero => exact (Except.error.inj h).symm
  | succ steps ih =>
      rw [policyWalk] at h
      split at h
      · cases h
      · exact ih h

theorem Climbs.congr {u : Tree} (hSame : ∀ id, t.node? id layer = u.node? id layer)
    {passed : List NodeId} {policy : PolicyId} (h : t.Climbs layer id passed policy) :
    u.Climbs layer id passed policy := by
  have hStep : ∀ id, u.policyStep layer id = t.policyStep layer id := fun id => by
    simp only [policyStep, hSame id]
  induction h with
  | answered answer => exact .answered ((hStep _).trans answer)
  | past ask _ ih => exact .past ((hStep _).trans ask) ih

/-- The policy in force depends only on what the layer shows. -/
theorem effectivePolicy_congr {u : Tree} (hSame : ∀ id, t.node? id layer = u.node? id layer)
    (id : NodeId) : t.effectivePolicy id layer = u.effectivePolicy id layer := by
  cases hFirst : t.effectivePolicy id layer with
  | ok policy =>
      obtain ⟨passed, hClimb⟩ := effectivePolicy_eq_ok_iff.mp hFirst
      exact (effectivePolicy_eq_ok_iff.mpr ⟨passed, hClimb.congr hSame⟩).symm
  | error f =>
      cases hSecond : u.effectivePolicy id layer with
      | ok policy =>
          obtain ⟨passed, hClimb⟩ := effectivePolicy_eq_ok_iff.mp hSecond
          have hBack := hClimb.congr fun id => (hSame id).symm
          cases hFirst.symm.trans (effectivePolicy_eq_ok_iff.mpr ⟨passed, hBack⟩)
      | error g => rw [policyWalk_error hFirst, policyWalk_error hSecond]

end Climb

/-- The counters go far enough for a plan. -/
structure Affords (t : Tree) (p : Plan) : Prop where
  numbers : t.nextId.raw.toNat + p.births < UInt64.size
  epochs : t.epoch.toNat + p.ticks < UInt64.size

/-- Where a plan asks what a directory inherits, the climb from its parent comes
to an answer. -/
def Settles (t : Tree) : Plan → Prop
  | .createSnapshot root _ => ∀ parent, (t.node? root .live).bind (·.parent) = some parent →
      ∃ passed policy, t.Climbs .live parent passed policy
  | _ => True

theorem number_lt (t : Tree) : t.nextId.raw.toNat < UInt64.size := UInt64.toNat_lt_size _

theorem epoch_lt (t : Tree) : t.epoch.toNat < UInt64.size := UInt64.toNat_lt_size _

section Numbers

/-- A child is added as long as there is a number after its own. -/
theorem addChild_spec (t : Tree) (parent : NodeId) (n : Node) :
    (t.nextId.raw.toNat + 1 < UInt64.size ∧ ∃ id added, t.addChild parent n = .ok (id, added) ∧
      added.nextId.raw.toNat = t.nextId.raw.toNat + 1) ∨
    (¬ t.nextId.raw.toNat + 1 < UInt64.size ∧ t.addChild parent n = .error .overflow) := by
  cases hAdd : t.addChild parent n with
  | ok result =>
      obtain ⟨id, added⟩ := result
      obtain ⟨_, next, hNext, rfl⟩ := addChild_cases hAdd
      refine .inl ⟨NodeId.next_ok_iff.mp ⟨next, hNext⟩, _, _, rfl, ?_⟩
      simpa [enter] using NodeId.toNat_of_next hNext
  | error f =>
      refine .inr ⟨fun hBound => ?_, by rw [addChild_error hAdd]⟩
      obtain ⟨next, hNext⟩ := NodeId.next_ok_iff.mpr hBound
      simp [addChild, hNext, bind, Except.bind, pure, Except.pure] at hAdd

/-- Directories are added as long as the numbers go. -/
theorem addDirectories_room (t : Tree) (parent : NodeId) (missing : List String) :
    (t.nextId.raw.toNat + missing.length < UInt64.size ∧
      ∃ dir added, t.addDirectories parent missing = .ok (dir, added) ∧
        added.nextId.raw.toNat = t.nextId.raw.toNat + missing.length ∧ added.epoch = t.epoch) ∨
    (¬ t.nextId.raw.toNat + missing.length < UInt64.size ∧
      t.addDirectories parent missing = .error .overflow) := by
  induction missing generalizing t parent with
  | nil => exact .inl ⟨t.number_lt, parent, t, rfl, rfl, rfl⟩
  | cons name rest ih =>
      rw [List.length_cons, addDirectories]
      rcases t.addChild_spec parent (.newDirectory name (some parent)) with
        ⟨_, id, opened, hAdd, hNumber⟩ | ⟨hFull, hAdd⟩
      · have hEpoch := epoch_addChild hAdd
        rw [hAdd]
        rcases ih opened id with ⟨hBound, dir, added, hDone, hLast, hSame⟩ | ⟨hFull, hFault⟩
        · exact .inl ⟨by omega, dir, added, hDone, by omega, hSame.trans hEpoch⟩
        · exact .inr ⟨by omega, hFault⟩
      · rw [hAdd]
        exact .inr ⟨by omega, rfl⟩

end Numbers

/-- Taking a snapshot ends when the climb for the inherited policy does, and
needs an epoch after the current one. -/
theorem takeSnapshot_cases (t : Tree) (root : NodeId) (name : String) :
    (t.Settles (.createSnapshot root name) ∧ t.epoch.toNat + 1 < UInt64.size ∧
      ∃ later, t.takeSnapshot root name = .ok later) ∨
    (t.Settles (.createSnapshot root name) ∧ ¬ t.epoch.toNat + 1 < UInt64.size ∧
      t.takeSnapshot root name = .error .overflow) ∨
    (¬ t.Settles (.createSnapshot root name) ∧ t.takeSnapshot root name = .error .endless) := by
  have hSettles : t.Settles (.createSnapshot root name) ↔
      ∃ policy, t.inheritedPolicy root = .ok policy := by
    unfold Settles inheritedPolicy
    cases hAbove : (t.node? root .live).bind (·.parent) with
    | none => simp [hAbove]
    | some parent =>
        simp only [hAbove, Option.some.injEq, forall_eq', effectivePolicy_eq_ok_iff]
        exact exists_comm
  unfold takeSnapshot
  cases hInherited : t.inheritedPolicy root with
  | ok policy =>
      cases hNext : successor t.epoch with
      | ok next => exact .inl ⟨hSettles.mpr ⟨policy, hInherited⟩, successor_ok_iff.mp ⟨next, hNext⟩,
          _, rfl⟩
      | error f =>
          refine .inr (.inl ⟨hSettles.mpr ⟨policy, hInherited⟩, fun hBound => ?_, ?_⟩)
          · obtain ⟨next, hNext'⟩ := successor_ok_iff.mpr hBound
            cases hNext.symm.trans hNext'
          · rw [fault_of_successor hNext]
            rfl
  | error f =>
      refine .inr (.inr ⟨fun h => ?_, ?_⟩)
      · obtain ⟨policy, hOk⟩ := hSettles.mp h
        cases hInherited.symm.trans hOk
      · unfold inheritedPolicy at hInherited
        split at hInherited
        · cases hInherited
        · rw [policyWalk_error hInherited]
          rfl

/-- An image is accepted in which the root is its own parent. -/
example : ∃ t, ofImage ⟨0, ⟨2⟩, [⟨.root, [⟨0, some (.newDirectory "" (some .root))⟩]⟩], []⟩ = .ok t ∧
    t.plan (.createSnapshot "/" "s") = .ok (.createSnapshot .root "s") ∧
    t.takeSnapshot .root "s" = .error .endless := ⟨_, rfl, rfl, rfl⟩

/-- What is planned for deletion was walked over while it was planned. -/
theorem subtree_of_plan {e : Edit} {name : String} {target : NodeId}
    (planned : t.plan e = .ok (.delete parent name target)) :
    ∃ ids, t.subtree target = .ok ids := by
  have hSuits := plan_suits planned
  cases e with
  | delete path recursive =>
      simp only [plan, planDelete] at planned
      split at planned
      · cases planned
      split at planned
      · cases planned
      next ids hIds =>
        split at planned
        · cases planned
        · cases planned
          exact ⟨ids, hIds⟩
  | _ => cases hSuits

/-- A plan that takes no snapshot asks for no policy, and needs only numbers. -/
theorem execute_room {e : Edit} {p : Plan} (planned : t.plan e = .ok p) (still : p.ticks = 0) :
    (t.nextId.raw.toNat + p.births < UInt64.size ∧
      ∃ id later, t.execute p = .ok (id, later)) ∨
    (¬ t.nextId.raw.toNat + p.births < UInt64.size ∧ t.execute p = .error .overflow) := by
  have hNumber := t.number_lt
  cases p with
  | mkdirs parent missing =>
      rcases t.addDirectories_room parent missing with ⟨hBound, dir, added, hDone, _⟩ | hFull
      · exact .inl ⟨hBound, dir, added, hDone⟩
      · exact .inr hFull
  | createFile parent missing name replication =>
      simp only [Plan.births, execute]
      rcases t.addDirectories_room parent missing with
        ⟨_, dir, added, hDone, hLast, _⟩ | ⟨hFull, hDone⟩
      · rw [hDone]
        rcases added.addChild_spec dir (.newFile name dir replication) with
          ⟨hBound, id, later, hFile, _⟩ | ⟨hFull, hFile⟩
        · exact .inl ⟨by omega, id, later, hFile⟩
        · exact .inr ⟨by omega, hFile⟩
      · rw [hDone]
        exact .inr ⟨by omega, rfl⟩
  | delete parent name target =>
      obtain ⟨ids, hIds⟩ := subtree_of_plan planned
      refine .inl ⟨hNumber, ?_⟩
      simp only [execute, removeSubtree, hIds]
      exact ⟨target, _, rfl⟩
  | setPolicy target policy => exact .inl ⟨hNumber, target, _, rfl⟩
  | createSnapshot root name => cases still
  | deleteSnapshot root name => exact .inl ⟨hNumber, root, _, rfl⟩

/-- The three ways in which carrying out a plan can end. -/
theorem execute_cases {e : Edit} {p : Plan} (planned : t.plan e = .ok p) :
    (t.Affords p ∧ t.Settles p ∧ ∃ id later, t.execute p = .ok (id, later)) ∨
    (¬ t.Affords p ∧ t.Settles p ∧ t.execute p = .error .overflow) ∨
    (¬ t.Settles p ∧ t.execute p = .error .endless) := by
  by_cases still : p.ticks = 0
  · have hAffords : t.Affords p ↔ t.nextId.raw.toNat + p.births < UInt64.size :=
      ⟨Affords.numbers, fun hBound => ⟨hBound, still ▸ t.epoch_lt⟩⟩
    have hSettles : t.Settles p := by
      cases p with
      | createSnapshot root name => cases still
      | _ => trivial
    rcases execute_room planned still with ⟨hBound, hDone⟩ | ⟨hFull, hFault⟩
    · exact .inl ⟨hAffords.mpr hBound, hSettles, hDone⟩
    · exact .inr (.inl ⟨mt hAffords.mp hFull, hSettles, hFault⟩)
  · cases p with
    | createSnapshot root name =>
        have hAffords : t.Affords (.createSnapshot root name) ↔
            t.epoch.toNat + 1 < UInt64.size := ⟨Affords.epochs, fun hBound => ⟨t.number_lt, hBound⟩⟩
        rcases t.takeSnapshot_cases root name with
          ⟨hSettles, hBound, later, hTaken⟩ | ⟨hSettles, hFull, hFault⟩ | ⟨hEndless, hFault⟩
        · refine .inl ⟨hAffords.mpr hBound, hSettles, root, later, ?_⟩
          simp only [execute, hTaken]
          rfl
        · refine .inr (.inl ⟨mt hAffords.mp hFull, hSettles, ?_⟩)
          simp only [execute, hFault]
          rfl
        · refine .inr (.inr ⟨hEndless, ?_⟩)
          simp only [execute, hFault]
          rfl
    | _ => exact absurd rfl still

/-- A plan that is carried out has used up what it needs, and no more. -/
theorem execute_counters {p : Plan} (hDone : t.execute p = .ok (id, later)) :
    later.nextId.raw.toNat = t.nextId.raw.toNat + p.births ∧
      later.epoch.toNat = t.epoch.toNat + p.ticks := by
  cases p with
  | mkdirs parent missing =>
      simp only [execute] at hDone
      rcases t.addDirectories_room parent missing with
        ⟨_, dir, added, hMade, hNumber, hEpoch⟩ | ⟨_, hFault⟩
      · cases hMade.symm.trans hDone
        exact ⟨hNumber, congrArg UInt64.toNat hEpoch⟩
      · cases hFault.symm.trans hDone
  | createFile parent missing name replication =>
      obtain ⟨⟨dir, opened⟩, hMade, hFile⟩ := bind_eq_ok_iff.mp hDone
      rcases t.addDirectories_room parent missing with
        ⟨_, dir', opened', hMade', hNumber, hEpoch⟩ | ⟨_, hFault⟩
      · cases hMade.symm.trans hMade'
        have hSame := epoch_addChild hFile
        rcases opened.addChild_spec dir (.newFile name dir replication) with
          ⟨_, file, added, hAdd, hLast⟩ | ⟨_, hFault⟩
        · cases hAdd.symm.trans hFile
          exact ⟨by simp only [Plan.births]; omega,
            congrArg UInt64.toNat (hSame.trans hEpoch)⟩
        · cases hFault.symm.trans hFile
      · cases hFault.symm.trans hMade
  | delete parent name target =>
      obtain ⟨removed, hRemoved, hRest⟩ := bind_eq_ok_iff.mp hDone
      obtain ⟨doomed, _, hBuried⟩ := bind_eq_ok_iff.mp hRemoved
      cases hRest
      cases hBuried
      simp [Plan.births, Plan.ticks]
  | setPolicy target policy =>
      cases hDone
      simp [Plan.births, Plan.ticks]
  | createSnapshot root name =>
      obtain ⟨taken, hTaken, hRest⟩ := bind_eq_ok_iff.mp hDone
      obtain ⟨inherited, _, hTick⟩ := bind_eq_ok_iff.mp hTaken
      obtain ⟨next, hNext, hShelved⟩ := bind_eq_ok_iff.mp hTick
      cases hRest
      cases hShelved
      exact ⟨rfl, toNat_of_successor hNext⟩
  | deleteSnapshot root name =>
      cases hDone
      exact ⟨rfl, rfl⟩

/-- In a sound tree every climb comes to an answer. -/
theorem Sound.settles (hSound : t.Sound) {e : Edit} {p : Plan} (planned : t.plan e = .ok p) :
    t.Settles p := by
  cases p with
  | createSnapshot root name =>
      obtain ⟨⟨n, seen, _⟩, _⟩ := plan_fits hSound.live planned
      intro parent hAbove
      obtain ⟨policy, hInherited, _⟩ := inheritedPolicy_spec hSound.live seen
      simp only [inheritedPolicy, hAbove] at hInherited
      obtain ⟨passed, hClimb⟩ := effectivePolicy_eq_ok_iff.mp hInherited
      exact ⟨passed, policy, hClimb⟩
  | _ => trivial

/-- A plan made for a tree of any origin is carried out to its end just where the
counters go far enough for it and the climb for an inherited policy ends. In a
tree that edits lead to only the counters matter. -/
theorem execute_ends_iff {e : Edit} {p : Plan} (planned : t.plan e = .ok p) :
    ((∃ id later, t.execute p = .ok (id, later)) ↔ t.Affords p ∧ t.Settles p) ∧
    (t.execute p = .error .overflow ↔ ¬ t.Affords p ∧ t.Settles p) ∧
    (t.execute p = .error .endless ↔ ¬ t.Settles p) ∧
    ∀ edits, new.run edits = .ok t → t.Settles p := by
  refine ⟨?_, ?_, ?_, fun edits hRun => (run_sound new_sound hRun).1.settles planned⟩ <;>
    rcases execute_cases planned with
      ⟨hAffords, hSettles, id, later, hDone⟩ | ⟨hFull, hSettles, hFault⟩ | ⟨hEndless, hFault⟩ <;>
    simp [*]

/-- An image may leave two numbers, and a file in a new directory takes both. -/
theorem execute_ends_iff_last_numbers :
    ∃ t p, ofImage ⟨0, ⟨18446744073709551613⟩,
        [⟨.root, [⟨0, some (.newDirectory "" none)⟩]⟩], []⟩ = .ok t ∧
      t.plan (.createFile "/a/b" 3) = .ok p ∧ t.Affords p ∧ t.Settles p := by
  obtain ⟨t, p, hImage, planned, result, hDone⟩ : ∃ t p,
      ofImage ⟨0, ⟨18446744073709551613⟩,
        [⟨.root, [⟨0, some (.newDirectory "" none)⟩]⟩], []⟩ = .ok t ∧
      t.plan (.createFile "/a/b" 3) = .ok p ∧ ∃ result, t.execute p = .ok result :=
    ⟨_, _, rfl, rfl, _, rfl⟩
  exact ⟨t, p, hImage, planned, (execute_ends_iff planned).1.mp ⟨result.1, result.2, hDone⟩⟩

/-- With the largest number as the next one an image is accepted and a plan is
made, but the directory cannot be. -/
theorem planned_mkdirs_overflows :
    ∃ t p, ofImage ⟨0, ⟨18446744073709551615⟩,
        [⟨.root, [⟨0, some (.newDirectory "" none)⟩]⟩], []⟩ = .ok t ∧
      t.plan (.mkdirs "/a") = .ok p ∧ t.execute p = .error .overflow :=
  ⟨_, _, rfl, rfl, rfl⟩

end Tree

end TierTree
