import TierTree.Proofs.Tree.Hierarchy

/-!
The three changes that edits make to what is seen of a live tree: a new child,
another policy on a node, and a node taken away with all that is below it.
Each of them leaves a tree.
-/

namespace TierTree.View

variable {v : View}

/-- A node without entries, under a name that its parent does not use yet. -/
structure Addable (v : View) (parent id : NodeId) (n pn : Node) : Prop where
  fresh : v id = none
  later : parent < id
  directory : v parent = some pn ∧ pn.isDirectory = true
  unused : pn.child? n.name = none
  named : Path.isValidName n.name = true
  below : n.parent = some parent
  empty : ∀ name, n.child? name = none

/-- A view with a new child of a directory. -/
def add (v : View) (parent id : NodeId) (n : Node) : View :=
  Function.update (Function.update v id (some n)) parent
    ((v parent).map (·.mapChildren (·.insert n.name id)))

section Add
variable {parent id : NodeId} {n pn : Node}

theorem Addable.ne (h : v.Addable parent id n pn) : parent ≠ id := NodeId.ne_of_lt h.later

theorem add_self (h : v.Addable parent id n pn) : v.add parent id n id = some n := by
  simp [add, Function.update_of_ne h.ne.symm]

theorem add_parent (h : v.Addable parent id n pn) :
    v.add parent id n parent = some (pn.mapChildren (·.insert n.name id)) := by
  simp [add, h.directory.1]

theorem add_other {j : NodeId} (hId : j ≠ id) (hParent : j ≠ parent) :
    v.add parent id n j = v j := by
  simp [add, hId, hParent]

/-- What is seen after a child was added: the child, its parent with one more
entry, or what was seen before. -/
theorem add_cases (h : v.Addable parent id n pn) {j : NodeId} {m : Node}
    (seen : v.add parent id n j = some m) :
    (j = id ∧ m = n) ∨ (j = parent ∧ m = pn.mapChildren (·.insert n.name id)) ∨
      (j ≠ id ∧ j ≠ parent ∧ v j = some m) := by
  by_cases hId : j = id
  · subst hId
    rw [add_self h, Option.some.injEq] at seen
    exact .inl ⟨rfl, seen.symm⟩
  · by_cases hParent : j = parent
    · subst hParent
      rw [add_parent h, Option.some.injEq] at seen
      exact .inr (.inl ⟨rfl, seen.symm⟩)
    · rw [add_other hId hParent] at seen
      exact .inr (.inr ⟨hId, hParent, seen⟩)

/-- Nodes seen before are seen afterwards, with the same name and parent, of
the same kind and with no entry less. -/
theorem add_of_seen (h : v.Addable parent id n pn) {j : NodeId} {m : Node}
    (seen : v j = some m) :
    ∃ m', v.add parent id n j = some m' ∧ m'.name = m.name ∧ m'.parent = m.parent ∧
      m'.isDirectory = m.isDirectory ∧
      ∀ name child, m.child? name = some child → m'.child? name = some child := by
  have hId : j ≠ id := by
    rintro rfl
    rw [h.fresh] at seen
    cases seen
  by_cases hParent : j = parent
  · subst hParent
    rw [h.directory.1, Option.some.injEq] at seen
    subst seen
    refine ⟨_, add_parent h, by simp, by simp, by simp, fun name child entry => ?_⟩
    rw [Node.child?_insert h.directory.2]
    split
    next same =>
      subst same
      rw [h.unused] at entry
      cases entry
    next => exact entry
  · exact ⟨m, (add_other hId hParent).trans seen, rfl, rfl, rfl, fun _ _ entry => entry⟩

/-- A node that is new to its directory leaves a hierarchy: links of the other nodes
are what they were, and the directory has one entry more. -/
theorem Hierarchy.add (h : v.Hierarchy) (ok : v.Addable parent id n pn) :
    (v.add parent id n).Hierarchy := by
  constructor
  case root =>
    obtain ⟨r, hRoot, hDirectory, hParent⟩ := h.root
    obtain ⟨r', hRoot', _, hParent', hKind, _⟩ := add_of_seen ok hRoot
    exact ⟨r', hRoot', hKind.trans hDirectory, hParent'.trans hParent⟩
  case up =>
    intro j m seen hj
    have hOld : ∀ old : Node, v j = some old → old.name = m.name → old.parent = m.parent →
        ∃ p pm, m.parent = some p ∧ p < j ∧ v.add parent id n p = some pm ∧
          pm.child? m.name = some j := by
      intro old hSeen hName hLink
      obtain ⟨p, pm, hp, hLt, hSeenP, hEntry⟩ := h.up hSeen hj
      obtain ⟨pm', hSeen', _, _, _, hMore⟩ := add_of_seen ok hSeenP
      exact ⟨p, pm', hLink ▸ hp, hLt, hSeen', hName ▸ hMore _ _ hEntry⟩
    rcases add_cases ok seen with ⟨rfl, rfl⟩ | ⟨rfl, rfl⟩ | ⟨_, _, hSame⟩
    · refine ⟨parent, _, ok.below, ok.later, add_parent ok, ?_⟩
      rw [Node.child?_insert ok.directory.2, if_pos rfl]
    · exact hOld pn ok.directory.1 (by simp) (by simp)
    · exact hOld m hSame rfl rfl
  case down =>
    intro j m name child seen entry
    have hOld : ∀ old : Node, v j = some old → old.child? name = some child →
        Path.isValidName name = true ∧
          ∃ cn, v.add parent id n child = some cn ∧ cn.name = name ∧ cn.parent = some j := by
      intro old hSeen hEntry
      obtain ⟨hName, cn, hChild, hCalled, hLink⟩ := h.down hSeen hEntry
      obtain ⟨cn', hChild', hCalled', hLink', _⟩ := add_of_seen ok hChild
      exact ⟨hName, cn', hChild', hCalled'.trans hCalled, hLink'.trans hLink⟩
    rcases add_cases ok seen with ⟨rfl, rfl⟩ | ⟨rfl, rfl⟩ | ⟨_, _, hSame⟩
    · rw [ok.empty] at entry
      cases entry
    · rw [Node.child?_insert ok.directory.2] at entry
      split at entry
      next same =>
        cases entry
        exact ⟨same ▸ ok.named, n, add_self ok, same.symm, ok.below⟩
      next => exact hOld pn ok.directory.1 entry
    · exact hOld m hSame entry

end Add

section Govern

/-- A view with another policy on one node. -/
def govern (v : View) (id : NodeId) (policy : PolicyId) : View :=
  Function.update v id ((v id).map fun n => { n with policy := policy })

theorem govern_apply (v : View) (id : NodeId) (policy : PolicyId) (j : NodeId) :
    v.govern id policy j =
      if j = id then (v j).map fun n => { n with policy := policy } else v j := by
  by_cases hj : j = id
  · subst hj
    simp [govern]
  · simp [govern, hj]

/-- Two views with the same nodes in the same places. -/
def SamePlaces (v w : View) : Prop :=
  ∀ {j n}, v j = some n → ∃ m, w j = some m ∧ m.name = n.name ∧ m.parent = n.parent ∧
    m.content = n.content

theorem samePlaces_govern (v : View) (id : NodeId) (policy : PolicyId) :
    v.SamePlaces (v.govern id policy) := by
  intro j n seen
  rw [govern_apply, seen]
  split
  · exact ⟨_, rfl, rfl, rfl, rfl⟩
  · exact ⟨n, rfl, rfl, rfl, rfl⟩

theorem govern_samePlaces (v : View) (id : NodeId) (policy : PolicyId) :
    (v.govern id policy).SamePlaces v := by
  intro j m seen
  rw [govern_apply] at seen
  split at seen
  · obtain ⟨n, hn, rfl⟩ := Option.map_eq_some_iff.mp seen
    exact ⟨n, hn, rfl, rfl, rfl⟩
  · exact ⟨m, seen, rfl, rfl, rfl⟩

theorem Hierarchy.congr {w : View} (h : v.Hierarchy) (there : v.SamePlaces w)
    (back : w.SamePlaces v) : w.Hierarchy := by
  constructor
  case root =>
    obtain ⟨r, hRoot, hDirectory, hParent⟩ := h.root
    obtain ⟨r', hRoot', _, hParent', hContent⟩ := there hRoot
    exact ⟨r', hRoot', (Node.isDirectory_congr hContent).trans hDirectory, hParent'.trans hParent⟩
  case up =>
    intro j m seen hj
    obtain ⟨n, hn, hName, hLink, _⟩ := back seen
    obtain ⟨p, pn, hp, hLt, hSeen, hEntry⟩ := h.up hn hj
    obtain ⟨pm, hSeen', _, _, hContent⟩ := there hSeen
    refine ⟨p, pm, hLink ▸ hp, hLt, hSeen', ?_⟩
    rw [Node.child?_congr hContent, ← hName, hEntry]
  case down =>
    intro j m name child seen entry
    obtain ⟨n, hn, _, _, hContent⟩ := back seen
    rw [← Node.child?_congr hContent] at entry
    obtain ⟨hName, cn, hChild, hCalled, hLink⟩ := h.down hn entry
    obtain ⟨cm, hChild', hCalled', hLink', _⟩ := there hChild
    exact ⟨hName, cm, hChild', hCalled'.trans hCalled, hLink'.trans hLink⟩

theorem Hierarchy.govern (h : v.Hierarchy) (id : NodeId) (policy : PolicyId) :
    (v.govern id policy).Hierarchy :=
  h.congr (samePlaces_govern v id policy) (govern_samePlaces v id policy)

end Govern

section Cut

/-- Whether a node is another one or below it. -/
def Below (v : View) (top id : NodeId) : Prop := ∃ cs, v.Leads top cs id

theorem Below.refl (v : View) (id : NodeId) : v.Below id id := ⟨[], .here id⟩

theorem Below.child {top id child : NodeId} {n : Node} {name : String} (h : v.Below top id)
    (seen : v id = some n) (entry : n.child? name = some child) : v.Below top child := by
  obtain ⟨cs, way⟩ := h
  exact ⟨_, way.snoc seen entry⟩

/-- A node below another is this one, or its parent is below it. -/
theorem Hierarchy.below_parent (h : v.Hierarchy) {top id : NodeId} {n : Node}
    (below : v.Below top id) (seen : v id = some n) :
    top = id ∨ ∃ p, n.parent = some p ∧ v.Below top p := by
  obtain ⟨cs, way⟩ := below
  rcases h.leads_last way seen with ⟨_, hSame⟩ | ⟨before, p, _, hBefore, hParent⟩
  · exact .inl hSame
  · exact .inr ⟨p, hParent, before, hBefore⟩

open Classical in
/-- A view without a node and all that is below it, and without the entry of
that node in its parent. -/
noncomputable def cut (v : View) (parent : NodeId) (name : String) (target : NodeId) : View :=
  fun j =>
    if v.Below target j then none
    else if j = parent then (v j).map (·.mapChildren (·.erase name))
    else v j

variable {parent target : NodeId} {name : String}

/-- A node that can be cut off: an entry of `parent` under its name. -/
structure Severable (v : View) (parent : NodeId) (name : String) (target : NodeId) : Prop where
  entry : ∃ pn, v parent = some pn ∧ pn.child? name = some target
  seen : ∃ n, v target = some n ∧ n.name = name ∧ n.parent = some parent

theorem Severable.root_not_below (ok : v.Severable parent name target) (h : v.Hierarchy) :
    ¬ v.Below target .root := by
  intro below
  obtain ⟨r, hRoot, _, hNone⟩ := h.root
  obtain ⟨n, hSeen, _, hParent⟩ := ok.seen
  rcases h.below_parent below hRoot with rfl | ⟨p, hp, _⟩
  · exact h.ne_root_of_parent hSeen hParent rfl
  · rw [hNone] at hp
    cases hp

variable (parent name) in
/-- What is not below the cut stays in its place, and keeps its entries but for
the one cut off. -/
theorem cut_of_seen {j : NodeId} {n : Node} (seen : v j = some n) (outside : ¬ v.Below target j) :
    ∃ m, v.cut parent name target j = some m ∧ m.name = n.name ∧ m.parent = n.parent ∧
      m.isDirectory = n.isDirectory ∧
      ∀ other, m.child? other = if j = parent ∧ other = name then none else n.child? other := by
  unfold cut
  rw [if_neg outside, seen]
  split
  next hj =>
    refine ⟨_, rfl, by simp, by simp, by simp, fun other => ?_⟩
    rw [Node.child?_erase]
    simp [hj]
  next hj => exact ⟨n, rfl, rfl, rfl, rfl, by simp [hj]⟩

/-- What is seen after a cut was there before. -/
theorem seen_of_cut {j : NodeId} {m : Node} (seen : v.cut parent name target j = some m) :
    ¬ v.Below target j ∧ ∃ n, v j = some n ∧ m.name = n.name ∧ m.parent = n.parent ∧
      ∀ other, m.child? other = if j = parent ∧ other = name then none else n.child? other := by
  by_cases below : v.Below target j
  · simp [cut, below] at seen
  · cases hSeen : v j with
    | none => simp [cut, below, hSeen] at seen
    | some n =>
        obtain ⟨m', hCut, hName, hParent, _, hEntries⟩ := cut_of_seen parent name hSeen below
        rw [seen, Option.some.injEq] at hCut
        exact ⟨below, n, rfl, hCut ▸ ⟨hName, hParent, hEntries⟩⟩

/-- The entry of a node outside the cut is not the one that is cut off. -/
theorem Severable.spares (ok : v.Severable parent name target) {p id : NodeId} {pn : Node}
    {other : String} (seen : v p = some pn) (entry : pn.child? other = some id)
    (outside : ¬ v.Below target id) : ¬ (p = parent ∧ other = name) := by
  rintro ⟨rfl, rfl⟩
  obtain ⟨n, hSeen, hTarget⟩ := ok.entry
  rw [seen, Option.some.injEq] at hSeen
  rw [← hSeen, entry, Option.some.injEq] at hTarget
  exact outside (hTarget ▸ Below.refl v target)

/-- What is entered outside the cut, and is not cut off, is outside as well. -/
theorem Severable.outside_of_entry (ok : v.Severable parent name target) (h : v.Hierarchy)
    {p id : NodeId} {pn : Node} {other : String} (seen : v p = some pn)
    (entry : pn.child? other = some id) (outside : ¬ v.Below target p)
    (spared : ¬ (p = parent ∧ other = name)) : ¬ v.Below target id := by
  intro below
  obtain ⟨_, n, hChild, hName, hParent⟩ := h.down seen entry
  rcases h.below_parent below hChild with rfl | ⟨above, hAbove, hBelow⟩
  · obtain ⟨tn, hTarget, hTargetName, hTargetParent⟩ := ok.seen
    rw [hChild, Option.some.injEq] at hTarget
    subst hTarget
    rw [hParent, Option.some.injEq] at hTargetParent
    exact spared ⟨hTargetParent, hName.symm.trans hTargetName⟩
  · rw [hParent, Option.some.injEq] at hAbove
    exact outside (hAbove ▸ hBelow)

theorem Hierarchy.cut (h : v.Hierarchy) (ok : v.Severable parent name target) :
    (v.cut parent name target).Hierarchy := by
  constructor
  case root =>
    obtain ⟨r, hRoot, hDirectory, hNone⟩ := h.root
    obtain ⟨m, hSeen, _, hLink, hKind, _⟩ := cut_of_seen parent name hRoot (ok.root_not_below h)
    exact ⟨m, hSeen, hKind.trans hDirectory, hLink.trans hNone⟩
  case up =>
    intro j m seen hj
    obtain ⟨outside, n, hn, hName, hLink, _⟩ := seen_of_cut seen
    obtain ⟨p, pn, hp, hLt, hSeen, hEntry⟩ := h.up hn hj
    have hOutside : ¬ v.Below target p := fun below => outside (below.child hSeen hEntry)
    obtain ⟨pm, hCut, _, _, _, hEntries⟩ := cut_of_seen parent name hSeen hOutside
    refine ⟨p, pm, hLink ▸ hp, hLt, hCut, ?_⟩
    rw [hEntries, hName, if_neg (ok.spares hSeen hEntry outside), hEntry]
  case down =>
    intro j m other child seen entry
    obtain ⟨outside, n, hn, _, _, hEntries⟩ := seen_of_cut seen
    rw [hEntries] at entry
    split at entry
    · cases entry
    next hSpared =>
      obtain ⟨hName, cn, hChild, hCalled, hLink⟩ := h.down hn entry
      obtain ⟨cm, hCut, hCalled', hLink', _⟩ := cut_of_seen parent name hChild
        (ok.outside_of_entry h hn entry outside hSpared)
      exact ⟨hName, cm, hCut, hCalled'.trans hCalled, hLink'.trans hLink⟩

end Cut

end TierTree.View
