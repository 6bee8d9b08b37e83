import TierTree.Proofs.Tree.Address

/-!
Deleting a path. What its path resolves to decides whether a deletion is planned
and why not: nothing may be below the node unless it is to go as well, and no
snapshot may be taken of the node or below it. A deletion that is planned is made,
and its path does not resolve any longer.
-/

namespace TierTree.Tree

variable {t later : Tree} {path : String} {names : List String} {recursive : Bool}
  {id target : NodeId} {n : Node} {e : TreeError}

/-- Some directory at a node or below it has snapshots. -/
def HeldBelow (t : Tree) (target : NodeId) : Prop :=
  ∃ id, (t.view .live).Below target id ∧ t.shelf.hasSnapshots id = true

/-- Where nothing is below a node, only its own snapshots hold it. -/
theorem heldBelow_iff_of_empty (seen : t.view .live target = some n) (hEmpty : n.childIds = []) :
    t.HeldBelow target ↔ t.shelf.hasSnapshots target = true := by
  constructor
  · rintro ⟨id, ⟨cs, way⟩, hHeld⟩
    cases way with
    | here => exact hHeld
    | into seen' entry _ =>
        cases seen.symm.trans seen'
        cases (Node.childIds_eq_nil_iff.mp hEmpty _).symm.trans entry
  · exact fun hHeld => ⟨target, .refl _ _, hHeld⟩

/-- For a node that may be deleted with its entries, only snapshots speak against it. -/
theorem plan_delete_of_deletedNode (h : (t.view .live).Hierarchy) {parent : NodeId} {name : String}
    (hNode : t.deletedNode path recursive = .ok (parent, name, target)) :
    (t.HeldBelow target ∧
      t.plan (.delete path recursive) = .error (.refused (.hasSnapshots path))) ∨
    (¬ t.HeldBelow target ∧
      t.plan (.delete path recursive) = .ok (.delete parent name target)) := by
  obtain ⟨m, seen, _⟩ := (deletedNode_spec h hNode).1.seen
  obtain ⟨ids, hIds, hExact⟩ := subtree_spec h seen
  have hHeld : ids.any t.shelf.hasSnapshots = true ↔ t.HeldBelow target := by
    simp only [List.any_eq_true, hExact, HeldBelow]
  simp only [plan, planDelete, hNode, hIds]
  by_cases hBelow : t.HeldBelow target
  · exact .inl ⟨hBelow, if_pos (hHeld.mpr hBelow)⟩
  · exact .inr ⟨hBelow, if_neg (mt hHeld.mp hBelow)⟩

section Plan
variable (hSplit : Path.split path = .ok names) (hSome : names ≠ [])
  (outside : Path.snapshotDir ∉ names)
include hSplit hSome outside

/-- Looking up a node to be deleted comes down to looking up the node at its path. -/
theorem deletedNode_eq (recursive : Bool) :
    t.deletedNode path recursive =
      t.liveNode path names >>= fun target => t.live target path >>= fun n =>
        n.parent.elim (.error (.notFound path)) fun parent =>
          if n.childIds ≠ [] ∧ !recursive then .error (.notEmpty path)
          else .ok (parent, names.getLast hSome, target) := by
  have hLast : names.getLast? = some (names.getLast hSome) := List.getLast?_eq_some_getLast hSome
  rw [deletedNode, liveComponents_eq_ok_iff.mpr ⟨hSplit, outside⟩, ok_bind]
  simp only [hLast]
  congr 1
  funext target
  congr 1
  funext n
  cases n.parent <;> rfl

variable (h : (t.view .live).Hierarchy)
include h

theorem deletedNode_of_unresolved (hResolve : t.resolve path = .error e) :
    t.deletedNode path recursive = .error e := by
  have hNode : t.liveNode path names = .error e := by
    rw [← resolve_eq_liveNode h hSplit outside, hResolve]
    rfl
  rw [deletedNode_eq hSplit hSome outside, hNode, error_bind]

theorem deletedNode_of_resolved (hResolve : t.resolve path = .ok (.node target .live n))
    (recursive : Bool) :
    ∃ parent name, t.deletedNode path recursive =
      if n.childIds ≠ [] ∧ !recursive then .error (.notEmpty path)
      else .ok (parent, name, target) := by
  have hNode : t.liveNode path names = .ok target := by
    rw [← resolve_eq_liveNode h hSplit outside, hResolve]
    rfl
  obtain ⟨r, hRoot, _⟩ := h.root
  have hFollow := hResolve
  rw [resolve_eq_follow hSplit hRoot] at hFollow
  obtain ⟨way, seen, _⟩ := leads_of_follow hRoot hFollow
  rcases h.leads_last way seen with ⟨hNil, _⟩ | ⟨_, parent, _, _, hParent⟩
  · exact absurd hNil hSome
  refine ⟨parent, names.getLast hSome, ?_⟩
  rw [deletedNode_eq hSplit hSome outside, hNode, ok_bind, live_eq_ok_iff.mpr seen, ok_bind,
    hParent]
  rfl

theorem plan_delete_of_unresolved (hResolve : t.resolve path = .error e) :
    t.plan (.delete path recursive) = .error (.refused e) := by
  simp only [plan, planDelete, deletedNode_of_unresolved hSplit hSome outside h hResolve]

/-- Nothing is deleted with entries below it unless they are to go as well. -/
theorem plan_delete_notEmpty (hResolve : t.resolve path = .ok (.node target .live n))
    (hEntries : n.childIds ≠ []) :
    t.plan (.delete path false) = .error (.refused (.notEmpty path)) := by
  obtain ⟨parent, name, hNode⟩ := deletedNode_of_resolved hSplit hSome outside h hResolve false
  rw [if_pos ⟨hEntries, rfl⟩] at hNode
  simp only [plan, planDelete, hNode]

/-- Apart from that, only snapshots speak against a deletion. -/
theorem plan_delete_of_resolved (hResolve : t.resolve path = .ok (.node target .live n))
    (hEntries : n.childIds = [] ∨ recursive = true) :
    (t.HeldBelow target ∧
      t.plan (.delete path recursive) = .error (.refused (.hasSnapshots path))) ∨
      ∃ p, ¬ t.HeldBelow target ∧ t.plan (.delete path recursive) = .ok p := by
  obtain ⟨parent, name, hNode⟩ :=
    deletedNode_of_resolved hSplit hSome outside h hResolve recursive
  have hPermitted : ¬ (n.childIds ≠ [] ∧ (!recursive) = true) := by
    rcases hEntries with hNone | rfl
    · simp [hNone]
    · simp
  rw [if_neg hPermitted] at hNode
  rcases plan_delete_of_deletedNode h hNode with hHeld | ⟨hFree, hPlan⟩
  · exact .inl hHeld
  · exact .inr ⟨_, hFree, hPlan⟩

end Plan

/-- A deletion that is planned is made. -/
theorem exists_apply_of_plan_delete (hSound : t.Sound) {p : Plan}
    (planned : t.plan (.delete path recursive) = .ok p) :
    ∃ id later, t.execute p = .ok (id, later) ∧
      t.apply (.delete path recursive) = .ok (id, later) := by
  obtain ⟨_, parent, name, target, _, rfl, _⟩ := planDelete_spec hSound.live planned
  rcases execute_room planned rfl with ⟨_, id, later, hDone⟩ | ⟨hFull, _⟩
  · exact ⟨id, later, hDone, apply_eq_ok_iff.mpr ⟨_, planned, hDone⟩⟩
  · exact absurd t.number_lt hFull

/-- The path of a deleted node does not resolve any longer. -/
theorem resolve_of_deleted (hSound : t.Sound) (hSplit : Path.split path = .ok names)
    (outside : Path.snapshotDir ∉ names)
    (hApply : t.apply (.delete path recursive) = .ok (id, later)) :
    later.resolve path = .error (.notFound path) := by
  obtain ⟨names', hSplit', ⟨o, standing, _⟩, hAfter⟩ := effect_of_apply hSound hApply
  cases hSplit.symm.trans hSplit'
  have hLater := (apply_sound hSound hApply).1
  have hVacant : later.layout names = none := by rw [hAfter, if_pos (List.prefix_refl names)]
  -- the directories on the way stay where they are
  have hFree : ¬ later.layout.Blocked names := by
    rintro ⟨place, hPrefix, hProper, o', hFile, hShape⟩
    have hBefore : ¬ names <+: place := fun hBehind =>
      hProper (hPrefix.eq_of_length_le hBehind.length_le)
    rw [hAfter, if_neg hBefore] at hFile
    have hNone := layout_of_blocked hSound.live ⟨place, hPrefix, hProper, o', hFile, hShape⟩
    cases hNone.symm.trans standing
  refine (resolve_eq_error_iff hLater.live fun names' hSplit' => ?_).mpr
    (.missing hSplit hVacant hFree)
  cases hSplit.symm.trans hSplit'
  exact outside

end TierTree.Tree
