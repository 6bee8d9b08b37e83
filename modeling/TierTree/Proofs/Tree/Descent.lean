import TierTree.Proofs.Tree.Walk

/-!
What planning an edit finds out. A walk down the live tree stops at the last
node that is there, and a plan that is not refused fits the tree it was made
for.
-/

namespace TierTree

/-- A directory in which a chain of new entries can be begun: all names may be
used, and the first of them is free. -/
def View.Room (v : View) (parent : NodeId) (names : List String) : Prop :=
  ∃ pn, v parent = some pn ∧ pn.isDirectory = true ∧
    (∀ name ∈ names, Path.isValidName name = true) ∧
    ∀ first ∈ names.head?, pn.child? first = none

/-- Whether a plan is of the kind of an edit and carries the data that the edit
gives besides its path. -/
def Plan.Suits : Plan → Edit → Prop
  | .mkdirs .., .mkdirs _ => True
  | .createFile _ _ _ replication, .createFile _ given => replication = given
  | .delete .., .delete .. => True
  | .setPolicy _ policy, .setPolicy _ given => policy = given
  | .createSnapshot _ name, .createSnapshot _ given => name = given
  | .deleteSnapshot _ name, .deleteSnapshot _ given => name = given
  | _, _ => False

namespace Tree

variable {t : Tree} {path : String}

/-- What a plan relies on when it is carried out. -/
def Fits (t : Tree) : Plan → Prop
  | .mkdirs parent missing => (t.view .live).Room parent missing
  | .createFile parent missing name _ => (t.view .live).Room parent (missing ++ [name])
  | .delete parent name target =>
      (t.view .live).Severable parent name target ∧
        ∀ id, (t.view .live).Below target id → t.shelf.hasSnapshots id = false
  | .setPolicy target _ => (t.view .live target).isSome = true
  | .createSnapshot root name =>
      (∃ n, t.view .live root = some n ∧ n.isDirectory = true) ∧
        Path.isValidName name = true ∧ t.shelf.get? root name = none
  | .deleteSnapshot root name => t.shelf.contains root name = true

/-- The nodes of a plan are the ones that these components lead to. -/
def Aims (t : Tree) (names : List String) : Plan → Prop
  | .mkdirs parent missing =>
      ∃ passed, names = passed ++ missing ∧ (t.view .live).Leads .root passed parent
  | .createFile parent missing name _ =>
      ∃ passed, names = passed ++ missing ++ [name] ∧ (t.view .live).Leads .root passed parent
  | .delete _ _ target => (t.view .live).Leads .root names target
  | .setPolicy target _ => (t.view .live).Leads .root names target
  | .createSnapshot root _ => (t.view .live).Leads .root names root
  | .deleteSnapshot root _ => (t.view .live).Leads .root names root

theorem split_of_liveComponents {names : List String} (h : liveComponents path = .ok names) :
    Path.split path = .ok names := by
  unfold liveComponents at h
  cases hSplit : Path.split path with
  | error cause => simp [hSplit] at h
  | ok components =>
      simp only [hSplit] at h
      split at h
      · cases h
      · cases h
        rfl

theorem live_eq_ok_iff {id : NodeId} {n : Node} :
    t.live id path = .ok n ↔ t.view .live id = some n := by
  unfold live view
  cases t.node? id .live <;> simp

theorem descend_cons {id : NodeId} {n : Node} {component : String} {rest : List String}
    (seen : t.view .live id = some n) :
    t.descend path id (component :: rest) =
      match n.children? with
      | none => .error (.notADirectory path)
      | some children =>
          match children.get? component with
          | some child => t.descend path child rest
          | none => .ok (id, component :: rest) := by
  have hLive : t.live id path = .ok n := live_eq_ok_iff.mpr seen
  simp only [descend, hLive]
  rfl

/-- A descent ends at the last node on the way. What is left over begins with
a name that this node has no entry for. -/
theorem descend_spec (h : (t.view .live).Hierarchy) {id dest : NodeId} {n : Node}
    {components rest : List String} (seen : t.view .live id = some n)
    (descent : t.descend path id components = .ok (dest, rest)) :
    ∃ passed dn, components = passed ++ rest ∧ (t.view .live).Leads id passed dest ∧
      t.view .live dest = some dn ∧
      ∀ first ∈ rest.head?, dn.isDirectory = true ∧ dn.child? first = none := by
  induction components generalizing id n with
  | nil =>
      simp only [descend, Except.ok.injEq, Prod.mk.injEq] at descent
      obtain ⟨rfl, rfl⟩ := descent
      exact ⟨[], n, rfl, .here _, seen, by simp⟩
  | cons component further ih =>
      rw [descend_cons seen] at descent
      cases hChildren : n.children? with
      | none => simp [hChildren] at descent
      | some children =>
          cases hChild : children.get? component with
          | none =>
              simp only [hChildren, hChild, Except.ok.injEq, Prod.mk.injEq] at descent
              obtain ⟨rfl, rfl⟩ := descent
              refine ⟨[], n, rfl, .here _, seen, ?_⟩
              simp [Node.isDirectory, Node.child?, hChildren, hChild]
          | some child =>
              simp only [hChildren, hChild] at descent
              have entry : n.child? component = some child :=
                Node.child?_eq_some_iff.mpr ⟨children, hChildren, hChild⟩
              obtain ⟨_, cn, hSeen, _⟩ := h.down seen entry
              obtain ⟨passed, dn, rfl, way, hDest, hStop⟩ := ih hSeen descent
              exact ⟨component :: passed, dn, rfl, .into seen entry way, hDest, hStop⟩

/-- A descent follows the way to a node to its end. -/
theorem descend_of_leads {id dest : NodeId} {components : List String}
    (way : (t.view .live).Leads id components dest) :
    t.descend path id components = .ok (dest, []) := by
  induction way with
  | here => rfl
  | into seen entry _ ih =>
      obtain ⟨children, hChildren, hChild⟩ := Node.child?_eq_some_iff.mp entry
      rw [descend_cons seen]
      simp only [hChildren, hChild]
      exact ih

theorem liveNode_spec (h : (t.view .live).Hierarchy) {components : List String} {id : NodeId}
    (found : t.liveNode path components = .ok id) :
    (t.view .live).Leads .root components id ∧ ∃ n, t.view .live id = some n := by
  obtain ⟨r, hRoot, _⟩ := h.root
  obtain ⟨⟨dest, rest⟩, descent, hEnd⟩ := bind_eq_ok_iff.mp found
  simp only at hEnd
  split at hEnd
  next hNone =>
    cases hEnd
    obtain ⟨passed, dn, rfl, way, seen, _⟩ := descend_spec h hRoot descent
    exact ⟨by simpa [hNone] using way, dn, seen⟩
  · cases hEnd

theorem liveDirectory_spec (h : (t.view .live).Hierarchy) {components : List String} {id : NodeId}
    (found : t.liveDirectory path components = .ok id) :
    (t.view .live).Leads .root components id ∧
      ∃ n, t.view .live id = some n ∧ n.isDirectory = true := by
  obtain ⟨id', hNode, hRest⟩ := bind_eq_ok_iff.mp found
  obtain ⟨n, hLive, hKind⟩ := bind_eq_ok_iff.mp hRest
  split at hKind
  next hDirectory =>
    cases hKind
    exact ⟨(liveNode_spec h hNode).1, n, live_eq_ok_iff.mp hLive, hDirectory⟩
  · cases hKind

theorem newNames_eq_ok_iff {names names' : List String} :
    newNames names = .ok names' ↔ names' = names ∧ ∀ n ∈ names, Path.isValidName n = true := by
  unfold newNames
  cases hBad : names.find? fun n => !Path.isValidName n with
  | none =>
      simp only [List.find?_eq_none, Bool.not_eq_eq_eq_not, Bool.not_true,
        Bool.not_eq_false] at hBad
      simp only [Except.ok.injEq]
      exact ⟨fun h => ⟨h.symm, hBad⟩, fun h => h.1.symm⟩
  | some bad =>
      have hMem := List.mem_of_find?_eq_some hBad
      have hInvalid := List.find?_some hBad
      simp only [Bool.not_eq_eq_eq_not, Bool.not_true] at hInvalid
      simp only [reduceCtorEq, false_iff, not_and, not_forall]
      exact fun _ => ⟨bad, hMem, by simp [hInvalid]⟩

section Plans

/-- A plan for directories names the ones that are missing on the way to the path. -/
theorem planMkdirs_spec (h : (t.view .live).Hierarchy) {p : Plan}
    (planned : t.planMkdirs path = .ok p) :
    ∃ names parent missing, Path.split path = .ok names ∧ p = .mkdirs parent missing ∧
      t.Fits p ∧ t.Aims names p := by
  obtain ⟨r, hRoot, _⟩ := h.root
  obtain ⟨components, hLive, hRest⟩ := bind_eq_ok_iff.mp planned
  have hSplit := split_of_liveComponents hLive
  obtain ⟨⟨parent, missing⟩, descent, hRest⟩ := bind_eq_ok_iff.mp hRest
  obtain ⟨n, hLive, hRest⟩ := bind_eq_ok_iff.mp hRest
  obtain ⟨passed, dn, hPassed, way, hParent, hStop⟩ := descend_spec h hRoot descent
  split at hRest
  next hDirectory =>
    obtain ⟨names, hNames, hPlan⟩ := bind_eq_ok_iff.mp hRest
    obtain ⟨rfl, hValid⟩ := newNames_eq_ok_iff.mp hNames
    cases hPlan
    have hSame := live_eq_ok_iff.mp hLive
    rw [hParent, Option.some.injEq] at hSame
    subst hSame
    exact ⟨components, parent, names, hSplit, rfl,
      ⟨dn, hParent, hDirectory, hValid, fun first hFirst => (hStop first hFirst).2⟩,
      passed, hPassed, way⟩
  · cases hRest

/-- A plan for a file names its directory, those that are missing above it, and a
name that is unused there. Only where nothing is missing does the directory itself
have to be asked for the name. -/
theorem planCreateFile_spec (h : (t.view .live).Hierarchy) {replication : UInt16} {p : Plan}
    (planned : t.planCreateFile path replication = .ok p) :
    ∃ names parent missing name, Path.split path = .ok names ∧
      p = .createFile parent missing name replication ∧ t.Fits p ∧ t.Aims names p := by
  obtain ⟨r, hRoot, _⟩ := h.root
  obtain ⟨components, hLive, hRest⟩ := bind_eq_ok_iff.mp planned
  have hSplit := split_of_liveComponents hLive
  split at hRest
  · cases hRest
  next name hLastName =>
    split at hRest
    · cases hRest
    obtain ⟨⟨parent, missing⟩, descent, hRest⟩ := bind_eq_ok_iff.mp hRest
    obtain ⟨n, hLive, hRest⟩ := bind_eq_ok_iff.mp hRest
    obtain ⟨passed, dn, hPassed, way, hParent, hStop⟩ := descend_spec h hRoot descent
    have hSame := live_eq_ok_iff.mp hLive
    rw [hParent, Option.some.injEq] at hSame
    subst hSame
    split at hRest
    · cases hRest
    next hDirectory =>
      split at hRest
      · cases hRest
      next hUnused =>
        obtain ⟨names, hNames, hRest⟩ := bind_eq_ok_iff.mp hRest
        obtain ⟨last, hLast, hPlan⟩ := bind_eq_ok_iff.mp hRest
        obtain ⟨rfl, hValid⟩ := newNames_eq_ok_iff.mp hNames
        obtain ⟨_, hName⟩ := newNames_eq_ok_iff.mp hLast
        cases hPlan
        have hAims : components = passed ++ names ++ [name] := by
          obtain ⟨dirs, rfl⟩ := List.getLast?_eq_some_iff.mp hLastName
          rw [← hPassed, List.dropLast_concat]
        refine ⟨components, parent, names, name, hSplit, rfl,
          ⟨dn, hParent, by simpa using hDirectory, ?_, ?_⟩, passed, hAims, way⟩
        · intro other hOther
          rcases List.mem_append.mp hOther with hOther | hOther
          · exact hValid other hOther
          · exact hName other hOther
        · intro first hFirst
          cases names with
          | nil =>
              simp only [List.nil_append, List.head?_cons, Option.mem_def,
                Option.some.injEq] at hFirst
              simpa [hFirst] using hUnused
          | cons head tail => exact (hStop first (by simpa using hFirst)).2

theorem planSetPolicy_spec (h : (t.view .live).Hierarchy) {policy : PolicyId} {p : Plan}
    (planned : t.planSetPolicy path policy = .ok p) :
    ∃ names target, Path.split path = .ok names ∧ p = .setPolicy target policy ∧ t.Fits p ∧
      t.Aims names p := by
  obtain ⟨components, hLive, hRest⟩ := bind_eq_ok_iff.mp planned
  obtain ⟨target, hTarget, hPlan⟩ := bind_eq_ok_iff.mp hRest
  cases hPlan
  obtain ⟨way, n, seen⟩ := liveNode_spec h hTarget
  refine ⟨components, target, split_of_liveComponents hLive, rfl, ?_, way⟩
  rw [Fits, seen]
  rfl

theorem planCreateSnapshot_spec (h : (t.view .live).Hierarchy) {name : String} {p : Plan}
    (planned : t.planCreateSnapshot path name = .ok p) :
    ∃ names root, Path.split path = .ok names ∧ p = .createSnapshot root name ∧ t.Fits p ∧
      t.Aims names p := by
  obtain ⟨components, hLive, hRest⟩ := bind_eq_ok_iff.mp planned
  obtain ⟨root, hDirectory, hRest⟩ := bind_eq_ok_iff.mp hRest
  split at hRest
  · cases hRest
  next hName =>
    split at hRest
    · cases hRest
    next hFree =>
      cases hRest
      obtain ⟨way, hKind⟩ := liveDirectory_spec h hDirectory
      exact ⟨components, root, split_of_liveComponents hLive, rfl,
        ⟨hKind, by simpa using hName, by simpa [Shelf.contains] using hFree⟩, way⟩

theorem planDeleteSnapshot_spec (h : (t.view .live).Hierarchy) {name : String} {p : Plan}
    (planned : t.planDeleteSnapshot path name = .ok p) :
    ∃ names root, Path.split path = .ok names ∧ p = .deleteSnapshot root name ∧ t.Fits p ∧
      t.Aims names p := by
  obtain ⟨components, hLive, hRest⟩ := bind_eq_ok_iff.mp planned
  obtain ⟨root, hDirectory, hRest⟩ := bind_eq_ok_iff.mp hRest
  split at hRest
  next hHeld =>
    cases hRest
    exact ⟨components, root, split_of_liveComponents hLive, rfl, hHeld,
      (liveDirectory_spec h hDirectory).1⟩
  · cases hRest

/-- A node that may be deleted is an entry of its parent under the last name
of the path. -/
theorem deletedNode_spec (h : (t.view .live).Hierarchy) {recursive : Bool}
    {parent target : NodeId} {name : String}
    (found : t.deletedNode path recursive = .ok (parent, name, target)) :
    (t.view .live).Severable parent name target ∧
      ∃ names, Path.split path = .ok names ∧ (t.view .live).Leads .root names target := by
  obtain ⟨components, hLive, hRest⟩ := bind_eq_ok_iff.mp found
  have hSplit := split_of_liveComponents hLive
  split at hRest
  · cases hRest
  next last hLast =>
    obtain ⟨target', hTarget, hRest⟩ := bind_eq_ok_iff.mp hRest
    obtain ⟨n, hLive, hRest⟩ := bind_eq_ok_iff.mp hRest
    obtain ⟨way, _⟩ := liveNode_spec h hTarget
    have seen := live_eq_ok_iff.mp hLive
    split at hRest
    · cases hRest
    next above hAbove =>
      split at hRest
      · cases hRest
      simp only [Except.ok.injEq, Prod.mk.injEq] at hRest
      obtain ⟨rfl, rfl, rfl⟩ := hRest
      have hCalled : n.name = last := by
        rcases h.leads_last way seen with ⟨rfl, _⟩ | ⟨before, b, rfl, _, _⟩
        · simp at hLast
        · simpa using hLast
      obtain ⟨_, pn, hParent, hEntry⟩ := h.up_of_parent seen hAbove
      exact ⟨⟨⟨pn, hParent, hCalled ▸ hEntry⟩, n, seen, hCalled, hAbove⟩, components, hSplit, way⟩

theorem planDelete_spec (h : (t.view .live).Hierarchy) {recursive : Bool} {p : Plan}
    (planned : t.planDelete path recursive = .ok p) :
    ∃ names parent name target, Path.split path = .ok names ∧
      p = .delete parent name target ∧ t.Fits p ∧ t.Aims names p := by
  unfold planDelete at planned
  cases hNode : t.deletedNode path recursive with
  | error e => simp [hNode] at planned
  | ok found =>
      obtain ⟨parent, name, target⟩ := found
      obtain ⟨hSever, names, hSplit, way⟩ := deletedNode_spec h hNode
      obtain ⟨n, seen, _⟩ := hSever.seen
      obtain ⟨ids, hIds, hExact⟩ := subtree_spec h seen
      simp only [hNode, hIds] at planned
      split at planned
      · cases planned
      next hFree =>
        cases planned
        refine ⟨names, parent, name, target, hSplit, rfl, ⟨hSever, fun id below => ?_⟩, way⟩
        simp only [List.any_eq_true, not_exists, not_and, Bool.not_eq_true] at hFree
        exact hFree id ((hExact id).mpr below)

/-- A plan that is not refused fits the tree. -/
theorem plan_fits (h : (t.view .live).Hierarchy) {e : Edit} {p : Plan}
    (planned : t.plan e = .ok p) : t.Fits p := by
  cases e with
  | mkdirs path =>
      obtain ⟨_, _, _, _, _, fits, _⟩ := planMkdirs_spec h (mapError_eq_ok_iff.mp planned)
      exact fits
  | createFile path replication =>
      obtain ⟨_, _, _, _, _, _, fits, _⟩ := planCreateFile_spec h (mapError_eq_ok_iff.mp planned)
      exact fits
  | delete path recursive =>
      obtain ⟨_, _, _, _, _, _, fits, _⟩ := planDelete_spec h planned
      exact fits
  | setPolicy path policy =>
      obtain ⟨_, _, _, _, fits, _⟩ := planSetPolicy_spec h (mapError_eq_ok_iff.mp planned)
      exact fits
  | createSnapshot path name =>
      obtain ⟨_, _, _, _, fits, _⟩ := planCreateSnapshot_spec h (mapError_eq_ok_iff.mp planned)
      exact fits
  | deleteSnapshot path name =>
      obtain ⟨_, _, _, _, fits, _⟩ := planDeleteSnapshot_spec h (mapError_eq_ok_iff.mp planned)
      exact fits

/-- A plan is made for an edit of its own kind and with the same data, apart
from the paths and the nodes that they lead to. -/
theorem plan_suits {e : Edit} {p : Plan} (planned : t.plan e = .ok p) : p.Suits e := by
  cases e with
  | mkdirs path =>
      obtain ⟨_, _, hRest⟩ := bind_eq_ok_iff.mp (mapError_eq_ok_iff.mp planned)
      obtain ⟨_, _, hRest⟩ := bind_eq_ok_iff.mp hRest
      obtain ⟨_, _, hRest⟩ := bind_eq_ok_iff.mp hRest
      split at hRest
      · obtain ⟨_, _, hPlan⟩ := bind_eq_ok_iff.mp hRest
        cases hPlan
        trivial
      · cases hRest
  | createFile path replication =>
      obtain ⟨_, _, hRest⟩ := bind_eq_ok_iff.mp (mapError_eq_ok_iff.mp planned)
      split at hRest
      · cases hRest
      split at hRest
      · cases hRest
      obtain ⟨_, _, hRest⟩ := bind_eq_ok_iff.mp hRest
      obtain ⟨_, _, hRest⟩ := bind_eq_ok_iff.mp hRest
      split at hRest
      · cases hRest
      split at hRest
      · cases hRest
      obtain ⟨_, _, hRest⟩ := bind_eq_ok_iff.mp hRest
      obtain ⟨_, _, hPlan⟩ := bind_eq_ok_iff.mp hRest
      cases hPlan
      rfl
  | delete path recursive =>
      simp only [plan, planDelete] at planned
      split at planned
      · cases planned
      split at planned
      · cases planned
      split at planned
      · cases planned
      · cases planned
        trivial
  | setPolicy path policy =>
      obtain ⟨_, _, hRest⟩ := bind_eq_ok_iff.mp (mapError_eq_ok_iff.mp planned)
      obtain ⟨_, _, hPlan⟩ := bind_eq_ok_iff.mp hRest
      cases hPlan
      rfl
  | createSnapshot path name =>
      obtain ⟨_, _, hRest⟩ := bind_eq_ok_iff.mp (mapError_eq_ok_iff.mp planned)
      obtain ⟨_, _, hRest⟩ := bind_eq_ok_iff.mp hRest
      split at hRest
      · cases hRest
      split at hRest
      · cases hRest
      · cases hRest
        rfl
  | deleteSnapshot path name =>
      obtain ⟨_, _, hRest⟩ := bind_eq_ok_iff.mp (mapError_eq_ok_iff.mp planned)
      obtain ⟨_, _, hRest⟩ := bind_eq_ok_iff.mp hRest
      split at hRest
      · cases hRest
        rfl
      · cases hRest

/-- Only an edit that takes a snapshot is planned as one. -/
theorem edit_of_plan {e : Edit} {root : NodeId} {name : String}
    (planned : t.plan e = .ok (.createSnapshot root name)) :
    ∃ path, e = .createSnapshot path name := by
  have hSuits := plan_suits planned
  cases e with
  | createSnapshot path given =>
      cases hSuits
      exact ⟨path, rfl⟩
  | _ => cases hSuits

/-- Planning always comes to an end. -/
theorem plan_ne_fault (h : (t.view .live).Hierarchy) (e : Edit) (f : Fault) :
    t.plan e ≠ .error (.fault f) := by
  have hRefused : ∀ call : Except TreeError Plan,
      call.mapError Failure.refused ≠ .error (.fault f) := by
    rintro (_ | _) <;> simp
  cases e with
  | delete path recursive =>
      intro planned
      simp only [plan, planDelete] at planned
      cases hNode : t.deletedNode path recursive with
      | error e => simp [hNode] at planned
      | ok found =>
          obtain ⟨n, seen, _⟩ := (deletedNode_spec h hNode).1.seen
          obtain ⟨ids, hIds, _⟩ := subtree_spec h seen
          simp only [hNode, hIds] at planned
          split at planned <;> cases planned
  | _ => exact hRefused _

end Plans

end Tree

end TierTree
