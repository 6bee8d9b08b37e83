import TierTree.Proofs.Tree.Admission
import TierTree.Proofs.Tree.Resolution

/-!
Addresses. Reading a path and planning a change of what it leads to go down the
tree by walks of their own, and one of them stops early where a name is missing.
Outside the snapshots both end at the same node, or break off for the same cause.
-/

namespace TierTree

/-- The number of the node that was found, or of the directory whose snapshots
were. -/
def Resolved.nodeId : Resolved → NodeId
  | .node id _ _ => id
  | .snapshotDir dir => dir

namespace Layout

/-- A file stands on the way to a place. -/
def Blocked (layout : Layout) (names : List String) : Prop :=
  ∃ place, place <+: names ∧ place ≠ names ∧ layout.FileAt place

end Layout

namespace Tree

/-- Why a path leads nowhere in the live tree: it is not well formed, it goes on
behind a file, or nothing stands at its end. -/
inductive Unfound (t : Tree) (path : String) : TreeError → Prop
  | malformed {cause : PathError} (bad : Path.split path = .error cause) :
      Unfound t path (.badPath cause)
  | blocked {names : List String} (hSplit : Path.split path = .ok names)
      (hBlocked : t.layout.Blocked names) : Unfound t path (.notADirectory path)
  | missing {names : List String} (hSplit : Path.split path = .ok names)
      (hVacant : t.layout names = none) (hFree : ¬ t.layout.Blocked names) :
      Unfound t path (.notFound path)

variable {t : Tree} {path : String} {names : List String} {id : NodeId} {n : Node} {e : TreeError}

section Descent

theorem openWay_iff (t : Tree) (names : List String) :
    (t.view .live).OpenWay .root names ↔ ¬ t.layout.Blocked names := by
  constructor
  · rintro hOpen ⟨place, hPrefix, hProper, hFile⟩
    obtain ⟨id, n, way, seen, hKind⟩ := fileAt_iff.mp hFile
    rw [hOpen place id n hPrefix hProper way seen] at hKind
    cases hKind
  · intro hFree front dest dn hPrefix hProper way seen
    by_contra hFile
    exact hFree ⟨front, hPrefix, hProper,
      fileAt_iff.mpr ⟨dest, dn, way, seen, by simpa using hFile⟩⟩

/-- A descent that breaks off has come to a file. -/
theorem cause_of_descend (h : (t.view .live).Hierarchy) (seen : t.view .live id = some n)
    (descent : t.descend path id names = .error e) : e = .notADirectory path := by
  induction names generalizing id n with
  | nil => cases descent
  | cons component rest ih =>
      rw [descend_cons seen] at descent
      cases hChildren : n.children? with
      | none =>
          simp only [hChildren, Except.error.injEq] at descent
          exact descent.symm
      | some children =>
          cases hChild : children.get? component with
          | none => simp [hChildren, hChild] at descent
          | some child =>
              simp only [hChildren, hChild] at descent
              obtain ⟨_, cn, hSeen, _⟩ :=
                h.down seen (Node.child?_eq_some_iff.mpr ⟨children, hChildren, hChild⟩)
              exact ih hSeen descent

theorem descend_eq_error_iff (h : (t.view .live).Hierarchy) :
    t.descend path .root names = .error e ↔
      t.layout.Blocked names ∧ e = .notADirectory path := by
  obtain ⟨r, hRoot, _⟩ := h.root
  have hEnds := (descend_ok_iff path h hRoot).trans (openWay_iff t names)
  cases hDescent : t.descend path .root names with
  | ok found =>
      have hFree := hEnds.mp ⟨found, hDescent⟩
      simp [hFree]
  | error cause =>
      have hBlocked : t.layout.Blocked names := by
        by_contra hFree
        obtain ⟨found, hFound⟩ := hEnds.mpr hFree
        cases hDescent.symm.trans hFound
      rw [cause_of_descend h hRoot hDescent, Except.error.injEq, eq_comm]
      exact (and_iff_right hBlocked).symm

/-- Looking for a node breaks off at a file on the way. Otherwise it fails only
where nothing stands at the end. -/
theorem liveNode_eq_error_iff (h : (t.view .live).Hierarchy) :
    t.liveNode path names = .error e ↔
      (t.layout.Blocked names ∧ e = .notADirectory path) ∨
        (t.layout names = none ∧ ¬ t.layout.Blocked names ∧ e = .notFound path) := by
  have hThere : t.layout names ≠ none ↔ ∃ id, t.liveNode path names = .ok id := by
    simp only [layout_ne_none_iff h, liveNode_eq_ok_iff h]
  cases hDescent : t.descend path .root names with
  | error cause =>
      obtain ⟨hBlocked, rfl⟩ := (descend_eq_error_iff h).mp hDescent
      have hNode : t.liveNode path names = .error (.notADirectory path) := by
        rw [liveNode, hDescent]
        rfl
      simp [hNode, hBlocked, eq_comm]
  | ok found =>
      have hFree : ¬ t.layout.Blocked names := fun hBlocked => by
        cases hDescent.symm.trans ((descend_eq_error_iff h).mpr ⟨hBlocked, rfl⟩)
      have hNode : t.liveNode path names =
          if found.2 = [] then .ok found.1 else .error (.notFound path) := by
        rw [liveNode, hDescent]
        rfl
      by_cases hEnd : found.2 = []
      · have hTaken : t.layout names ≠ none := hThere.mpr ⟨found.1, by rw [hNode, if_pos hEnd]⟩
        rw [hNode, if_pos hEnd]
        simp [hFree, hTaken]
      · have hVacant : t.layout names = none := by
          by_contra hTaken
          obtain ⟨id, hFound⟩ := hThere.mp hTaken
          rw [hNode, if_neg hEnd] at hFound
          cases hFound
        rw [hNode, if_neg hEnd]
        simp [hFree, hVacant, eq_comm]

/-- Nothing stands behind a file. -/
theorem layout_of_blocked (h : (t.view .live).Hierarchy) (hBlocked : t.layout.Blocked names) :
    t.layout names = none := by
  by_contra hTaken
  obtain ⟨id, way⟩ := (layout_ne_none_iff h).mp hTaken
  have hNode : t.liveNode "" names = .error (.notADirectory "") :=
    (liveNode_eq_error_iff h).mpr (.inl ⟨hBlocked, rfl⟩)
  cases hNode.symm.trans ((liveNode_eq_ok_iff h).mpr way)

/-- A path that stays in the live tree is followed to where a descent ends. What
the descent has left over is not found. -/
theorem follow_eq_descend (h : (t.view .live).Hierarchy) (seen : t.view .live id = some n)
    (outside : Path.snapshotDir ∉ names) :
    (t.follow path id .live n names).map Resolved.nodeId =
      t.descend path id names >>= fun found =>
        if found.2 = [] then .ok found.1 else .error (.notFound path) := by
  induction names generalizing id n with
  | nil => rfl
  | cons component rest ih =>
      obtain ⟨hFirst, hRest⟩ := List.ne_and_not_mem_of_not_mem_cons outside
      rw [follow_cons (.inl hFirst.symm), descend_cons seen]
      cases hChildren : n.children? with
      | none => rfl
      | some children =>
          simp only
          cases hChild : children.get? component with
          | none => rfl
          | some child =>
              obtain ⟨_, cn, hSeen, _⟩ :=
                h.down seen (Node.child?_eq_some_iff.mpr ⟨children, hChildren, hChild⟩)
              simp only [hSeen]
              exact ih hSeen hRest

end Descent

section Resolution

theorem resolve_eq_liveNode (h : (t.view .live).Hierarchy) (hSplit : Path.split path = .ok names)
    (outside : Path.snapshotDir ∉ names) :
    (t.resolve path).map Resolved.nodeId = t.liveNode path names := by
  obtain ⟨r, hRoot, _⟩ := h.root
  rw [resolve_eq_follow hSplit hRoot, follow_eq_descend h hRoot outside]
  rfl

/-- A plan to set a policy is about the node that its path resolves to, and is
refused for the cause for which the path does not resolve. -/
theorem plan_setPolicy_eq (h : (t.view .live).Hierarchy)
    (outside : ∀ names, Path.split path = .ok names → Path.snapshotDir ∉ names)
    (policy : PolicyId) :
    t.plan (.setPolicy path policy) =
      ((t.resolve path).map fun found => .setPolicy found.nodeId policy).mapError .refused := by
  cases hSplit : Path.split path with
  | error cause =>
      have hResolve : t.resolve path = .error (.badPath cause) := by simp only [resolve, hSplit]
      rw [hResolve, plan, planSetPolicy, liveComponents, hSplit]
      rfl
  | ok names =>
      have hLive : liveComponents path = .ok names :=
        liveComponents_eq_ok_iff.mpr ⟨hSplit, outside names hSplit⟩
      have hSame := resolve_eq_liveNode h hSplit (outside names hSplit)
      rw [plan, planSetPolicy, hLive, ok_bind, ← hSame]
      cases t.resolve path <;> rfl

/-- A path outside the snapshots resolves unless there is one of three causes. -/
theorem resolve_eq_error_iff (h : (t.view .live).Hierarchy)
    (outside : ∀ names, Path.split path = .ok names → Path.snapshotDir ∉ names) :
    t.resolve path = .error e ↔ t.Unfound path e := by
  cases hSplit : Path.split path with
  | error cause =>
      have hResolve : t.resolve path = .error (.badPath cause) := by simp only [resolve, hSplit]
      rw [hResolve, Except.error.injEq]
      constructor
      · rintro rfl
        exact .malformed hSplit
      · intro hUnfound
        cases hUnfound with
        | malformed bad => cases hSplit.symm.trans bad; rfl
        | blocked hSplit' => cases hSplit.symm.trans hSplit'
        | missing hSplit' => cases hSplit.symm.trans hSplit'
  | ok names =>
      have hNode : t.resolve path = .error e ↔ t.liveNode path names = .error e := by
        rw [← resolve_eq_liveNode h hSplit (outside names hSplit)]
        cases t.resolve path <;> simp [Except.map]
      rw [hNode, liveNode_eq_error_iff h]
      constructor
      · rintro (⟨hBlocked, rfl⟩ | ⟨hVacant, hFree, rfl⟩)
        · exact .blocked hSplit hBlocked
        · exact .missing hSplit hVacant hFree
      · intro hUnfound
        cases hUnfound with
        | malformed bad => cases hSplit.symm.trans bad
        | blocked hSplit' hBlocked =>
            cases hSplit.symm.trans hSplit'
            exact .inl ⟨hBlocked, rfl⟩
        | missing hSplit' hVacant hFree =>
            cases hSplit.symm.trans hSplit'
            exact .inr ⟨hVacant, hFree, rfl⟩

/-- Outside the snapshots a path resolves to a live node just where a policy can be
set on that node by it. Where one of the two is refused, so is the other, with the
same error, and there are three causes for it. -/
theorem resolve_agrees_with_plan {edits : List Edit} (hRun : new.run edits = .ok t)
    (outside : ∀ names, Path.split path = .ok names → Path.snapshotDir ∉ names)
    (policy : PolicyId) :
    (∀ id, (∃ n, t.resolve path = .ok (.node id .live n)) ↔
      t.plan (.setPolicy path policy) = .ok (.setPolicy id policy)) ∧
    (∀ found, t.resolve path = .ok found →
      ∃ id n, found = .node id .live n ∧ t.view .live id = some n) ∧
    (∀ failure, t.plan (.setPolicy path policy) = .error failure ↔
      ∃ e, failure = .refused e ∧ t.resolve path = .error e) ∧
    ∀ e, t.resolve path = .error e ↔ t.Unfound path e := by
  have hSound := (run_sound new_sound hRun).1
  have hPlan := plan_setPolicy_eq hSound.live outside policy
  have hFound : ∀ found, t.resolve path = .ok found →
      ∃ id n, found = .node id .live n ∧ t.view .live id = some n := by
    intro found hResolve
    obtain ⟨names, hSplit⟩ := split_of_resolve hResolve
    cases finds_of_resolve hSound hSplit hResolve with
    | live _ _ seen => exact ⟨_, _, rfl, seen⟩
    | frozen => exact absurd (by simp) (outside _ hSplit)
    | snapshots => exact absurd (by simp) (outside _ hSplit)
  refine ⟨fun id => ?_, hFound, fun failure => ?_,
    fun e => resolve_eq_error_iff hSound.live outside⟩
  · rw [hPlan, mapError_eq_ok_iff, map_eq_ok_iff]
    constructor
    · rintro ⟨n, hResolve⟩
      exact ⟨_, hResolve, rfl⟩
    · rintro ⟨found, hResolve, hSame⟩
      obtain ⟨id', n, rfl, _⟩ := hFound found hResolve
      cases hSame
      exact ⟨n, hResolve⟩
  · rw [hPlan, mapError_eq_error_iff]
    cases t.resolve path with
    | ok found => simp [Except.map]
    | error cause => simp [Except.map, eq_comm]

/-- A slash behind the name of a file changes nothing, and behind a further name both
calls break off at the file. -/
theorem resolve_agrees_with_plan_behind_file :
    ∃ t, new.run [.createFile "/a/f" 2] = .ok t ∧
      t.plan (.setPolicy "/a/f/" ⟨7⟩) = .ok (.setPolicy ⟨3⟩ ⟨7⟩) ∧
      t.plan (.setPolicy "/a/f/x" ⟨7⟩) = .error (.refused (.notADirectory "/a/f/x")) ∧
      t.Unfound "/a/f/x" (.notADirectory "/a/f/x") := by
  obtain ⟨t, hRun, hFile, hBehind⟩ : ∃ t, new.run [.createFile "/a/f" 2] = .ok t ∧
      t.resolve "/a/f/" = .ok (.node ⟨3⟩ .live (.newFile "f" ⟨2⟩ 2)) ∧
      t.resolve "/a/f/x" = .error (.notADirectory "/a/f/x") :=
    ⟨_, rfl, by decide +kernel, by decide +kernel⟩
  have hFilePath : Path.split "/a/f/" = .ok ["a", "f"] := rfl
  have hBehindPath : Path.split "/a/f/x" = .ok ["a", "f", "x"] := rfl
  have atFile := resolve_agrees_with_plan hRun
    (fun names hSplit => by cases hFilePath.symm.trans hSplit; decide) ⟨7⟩
  have behindFile := resolve_agrees_with_plan hRun
    (fun names hSplit => by cases hBehindPath.symm.trans hSplit; decide) ⟨7⟩
  exact ⟨t, hRun, (atFile.1 ⟨3⟩).mp ⟨_, hFile⟩, (behindFile.2.2.1 _).mpr ⟨_, rfl, hBehind⟩,
    (behindFile.2.2.2 _).mp hBehind⟩

end Resolution

end Tree

end TierTree
