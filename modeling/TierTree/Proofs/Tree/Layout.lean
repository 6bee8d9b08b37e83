import TierTree.Proofs.Tree.Sound

/-!
Layouts. A tree is laid out as a map from places, which are lists of names, to
what stands there. Each change of a view is described by the places whose
occupant it changes; everything else stays where it is.
-/

namespace TierTree

/-- What kind of thing a node is. -/
inductive Shape where
  | directory
  | file (replication : UInt16)
  deriving DecidableEq, Repr

/-- What stands at a place: a node by its number, with its own policy. -/
structure Occupant where
  id : NodeId
  shape : Shape
  policy : PolicyId
  deriving DecidableEq, Repr

/-- What stands at each place. A place is the list of names that leads there. -/
abbrev Layout := List String → Option Occupant

namespace Node

def shape (n : Node) : Shape :=
  match n.content with
  | .file replication => .file replication
  | .directory _ => .directory

/-- A node as what stands at its place. -/
def occupant (n : Node) (id : NodeId) : Occupant := ⟨id, n.shape, n.policy⟩

@[simp] theorem occupant_mapChildren (n : Node)
    (change : SortedMap String NodeId → SortedMap String NodeId) (id : NodeId) :
    (n.mapChildren change).occupant id = n.occupant id := by
  obtain ⟨name, parent, policy, content⟩ := n
  cases content <;> rfl

end Node

namespace View

variable {v w : View}

/-- Go down from a node by names. -/
def reach (v : View) : NodeId → List String → Option NodeId
  | id, [] => some id
  | id, name :: rest => do
      let n ← v id
      let child ← n.child? name
      v.reach child rest

/-- What stands at the places below the root. -/
def layout (v : View) : Layout := fun names => do
  let id ← v.reach .root names
  let n ← v id
  return n.occupant id

theorem reach_eq_some_iff {id dest : NodeId} {names : List String} :
    v.reach id names = some dest ↔ v.Leads id names dest := by
  induction names generalizing id with
  | nil =>
      constructor
      · intro h
        cases h
        exact .here _
      · intro way
        cases way
        rfl
  | cons name rest ih =>
      simp only [reach, Option.bind_eq_bind, Option.bind_eq_some_iff]
      constructor
      · intro h
        obtain ⟨n, seen, child, entry, further⟩ := h
        exact .into seen entry (ih.mp further)
      · intro way
        cases way with
        | into seen entry further => exact ⟨_, seen, _, entry, ih.mpr further⟩

theorem layout_eq_some_iff {names : List String} {o : Occupant} :
    v.layout names = some o ↔
      v.Leads .root names o.id ∧ ∃ n, v o.id = some n ∧ n.occupant o.id = o := by
  simp only [layout, Option.bind_eq_bind, Option.bind_eq_some_iff, Option.pure_def,
    Option.some.injEq, reach_eq_some_iff]
  constructor
  · intro h
    obtain ⟨id, way, n, seen, rfl⟩ := h
    exact ⟨way, n, seen, rfl⟩
  · intro h
    obtain ⟨way, n, seen, hSame⟩ := h
    exact ⟨o.id, way, n, seen, hSame⟩

theorem layout_of_leads {names : List String} {id : NodeId} {n : Node}
    (way : v.Leads .root names id) (seen : v id = some n) :
    v.layout names = some (n.occupant id) :=
  layout_eq_some_iff.mpr ⟨way, n, seen, rfl⟩

theorem Hierarchy.exists_occupant (h : v.Hierarchy) {names : List String} {id : NodeId}
    (way : v.Leads .root names id) : ∃ o, v.layout names = some o ∧ o.id = id := by
  obtain ⟨n, seen⟩ := h.seen_of_leads way h.root_isSome
  exact ⟨n.occupant id, layout_of_leads way seen, rfl⟩

/-- No node stands at two places. -/
theorem Hierarchy.layout_injective (h : v.Hierarchy) {names names' : List String}
    {o o' : Occupant} (first : v.layout names = some o) (second : v.layout names' = some o')
    (hSame : o.id = o'.id) : names = names' := by
  have way := (layout_eq_some_iff.mp first).1
  have way' := (layout_eq_some_iff.mp second).1
  exact h.leads_unique h.root_isSome way (hSame ▸ way')

/-- A view that is part of another: its ways lead to the same nodes there, and
its nodes are the same occupants. -/
structure PartOf (w v : View) : Prop where
  ways : ∀ {names id}, w.Leads .root names id → v.Leads .root names id
  occupants : ∀ {id m}, w id = some m → ∃ n, v id = some n ∧ n.occupant id = m.occupant id

/-- The layout of a part is the whole layout without the nodes that are not in
the part. -/
theorem PartOf.layout_eq (part : w.PartOf v) (hw : w.Hierarchy) (hv : v.Hierarchy)
    (names : List String) : w.layout names = (v.layout names).filter fun o => (w o.id).isSome := by
  apply Option.ext
  intro o
  simp only [Option.filter_eq_some_iff]
  constructor
  · intro h
    obtain ⟨way, m, seen, hSame⟩ := layout_eq_some_iff.mp h
    obtain ⟨n, seen', hOccupant⟩ := part.occupants seen
    have hWhole := layout_of_leads (part.ways way) seen'
    rw [hOccupant, hSame] at hWhole
    exact ⟨hWhole, by rw [seen]; rfl⟩
  · intro h
    obtain ⟨hWhole, hIn⟩ := h
    obtain ⟨way, n, seen, hSame⟩ := layout_eq_some_iff.mp hWhole
    obtain ⟨m, seen'⟩ := Option.isSome_iff_exists.mp hIn
    obtain ⟨n', seen'', hOccupant⟩ := part.occupants seen'
    rw [seen, Option.some.injEq] at seen''
    subst seen''
    -- the part has a way of its own to the node, and there is only one
    obtain ⟨names', way'⟩ := hw.exists_leads seen'
    have hNames := hv.leads_unique hv.root_isSome way (part.ways way')
    rw [hNames, layout_of_leads way' seen', ← hOccupant, hSame]

section Add
variable {parent id : NodeId} {n pn : Node} {dir : List String}

theorem leads_add (ok : v.Addable parent id n pn) {a b : NodeId} {names : List String}
    (way : v.Leads a names b) : (v.add parent id n).Leads a names b := by
  induction way with
  | here a => exact .here a
  | into seen entry _ ih =>
      obtain ⟨m, seen', _, _, _, hEntries⟩ := add_of_seen ok seen
      exact .into seen' (hEntries _ _ entry) ih

theorem partOf_add (ok : v.Addable parent id n pn) : v.PartOf (v.add parent id n) := by
  constructor
  case ways => exact leads_add ok
  case occupants =>
    intro j m seen
    have hId : j ≠ id := by
      rintro rfl
      rw [ok.fresh] at seen
      cases seen
    by_cases hParent : j = parent
    · subst hParent
      rw [ok.directory.1, Option.some.injEq] at seen
      exact ⟨_, add_parent ok, by rw [← seen, Node.occupant_mapChildren]⟩
    · exact ⟨m, (add_other hId hParent).trans seen, rfl⟩

/-- A new child stands at its name below the place of its parent. -/
theorem Hierarchy.layout_add (h : v.Hierarchy) (ok : v.Addable parent id n pn)
    (way : v.Leads .root dir parent) :
    (v.add parent id n).layout =
      Function.update v.layout (dir ++ [n.name]) (some (n.occupant id)) := by
  have hAdded := h.add ok
  have hEntry : (pn.mapChildren (·.insert n.name id)).child? n.name = some id := by
    rw [Node.child?_insert ok.directory.2, if_pos rfl]
  have wayNew : (v.add parent id n).Leads .root (dir ++ [n.name]) id :=
    (leads_add ok way).snoc (add_parent ok) hEntry
  have hNew := layout_of_leads wayNew (add_self ok)
  funext names
  by_cases hNames : names = dir ++ [n.name]
  · rw [hNames, hNew, Function.update_self]
  · rw [Function.update_of_ne hNames, (partOf_add ok).layout_eq h hAdded]
    cases hLayout : (v.add parent id n).layout names with
    | none => rfl
    | some o =>
        have hOld : o.id ≠ id := fun hSame =>
          hNames (hAdded.layout_injective hLayout hNew hSame)
        obtain ⟨_, m, seen, _⟩ := layout_eq_some_iff.mp hLayout
        have hSeen : (v o.id).isSome = true := by
          obtain ⟨hId, _⟩ | ⟨hParent, _⟩ | ⟨_, _, hSame⟩ := add_cases ok seen
          · exact absurd hId hOld
          · rw [hParent, ok.directory.1]
            rfl
          · rw [hSame]
            rfl
        rw [Option.filter_some, if_pos hSeen]

end Add

section Cut
variable {parent target : NodeId} {name : String} {names : List String}

theorem leads_of_cut {a b : NodeId} (way : (v.cut parent name target).Leads a names b) :
    v.Leads a names b := by
  induction way with
  | here a => exact .here a
  | into seen entry _ ih =>
      obtain ⟨_, n, seen', _, _, hEntries⟩ := seen_of_cut seen
      rw [hEntries] at entry
      split at entry
      · cases entry
      · exact .into seen' entry ih

theorem cut_partOf (v : View) (parent : NodeId) (name : String) (target : NodeId) :
    (v.cut parent name target).PartOf v := by
  constructor
  case ways => exact leads_of_cut
  case occupants =>
    intro j m seen
    unfold cut at seen
    split at seen
    · cases seen
    · split at seen
      · obtain ⟨n, hn, rfl⟩ := Option.map_eq_some_iff.mp seen
        exact ⟨n, hn, (Node.occupant_mapChildren ..).symm⟩
      · exact ⟨m, seen, rfl⟩

/-- What is below a node stands behind its place, and nothing else does. -/
theorem Hierarchy.below_iff_prefix (h : v.Hierarchy) {place : List String} {id : NodeId}
    (wayTarget : v.Leads .root names target) (way : v.Leads .root place id) :
    v.Below target id ↔ names <+: place := by
  constructor
  · intro below
    obtain ⟨rest, wayRest⟩ := below
    exact ⟨rest, h.leads_unique h.root_isSome (wayTarget.append wayRest) way⟩
  · intro hPrefix
    obtain ⟨rest, rfl⟩ := hPrefix
    obtain ⟨mid, wayMid, wayRest⟩ := way.split
    exact ⟨rest, wayTarget.deterministic wayMid ▸ wayRest⟩

/-- A cut clears the place of a node and the places behind it. -/
theorem Hierarchy.layout_cut (h : v.Hierarchy) (ok : v.Severable parent name target)
    (way : v.Leads .root names target) (place : List String) :
    (v.cut parent name target).layout place = if names <+: place then none else v.layout place := by
  rw [(cut_partOf v parent name target).layout_eq (h.cut ok) h]
  cases hLayout : v.layout place with
  | none => simp
  | some o =>
      obtain ⟨wayOld, n, seen, _⟩ := layout_eq_some_iff.mp hLayout
      have hBelow := h.below_iff_prefix way wayOld
      by_cases hPrefix : names <+: place
      · have hGone : v.cut parent name target o.id = none := by
          rw [View.cut, if_pos (hBelow.mpr hPrefix)]
        simp [hPrefix, hGone]
      · obtain ⟨m, hStays, _⟩ :=
          cut_of_seen parent name seen (fun below => hPrefix (hBelow.mp below))
        simp [hPrefix, hStays]

end Cut

section Govern

theorem leads_of_samePlaces (same : v.SamePlaces w) {a b : NodeId} {names : List String}
    (way : v.Leads a names b) : w.Leads a names b := by
  induction way with
  | here a => exact .here a
  | into seen entry _ ih =>
      obtain ⟨m, seen', _, _, hContent⟩ := same seen
      exact .into seen' ((Node.child?_congr hContent _).trans entry) ih

/-- Another policy on a node changes the policy at its place. -/
theorem Hierarchy.layout_govern (h : v.Hierarchy) {target : NodeId} {names : List String}
    {o : Occupant} (standing : v.layout names = some o) (hTarget : o.id = target)
    (policy : PolicyId) :
    (v.govern target policy).layout =
      Function.update v.layout names (some { o with policy := policy }) := by
  funext place
  apply Option.ext
  intro x
  have ways {id : NodeId} : (v.govern target policy).Leads .root place id ↔
      v.Leads .root place id :=
    ⟨leads_of_samePlaces (govern_samePlaces v target policy),
      leads_of_samePlaces (samePlaces_govern v target policy)⟩
  by_cases hPlace : place = names
  · subst hPlace
    obtain ⟨way, n, seen, hOccupant⟩ := layout_eq_some_iff.mp standing
    have seen' : v.govern target policy o.id = some { n with policy := policy } := by
      rw [govern_apply, if_pos hTarget, seen]
      rfl
    rw [Function.update_self, layout_of_leads (ways.mpr way) seen', ← hOccupant]
    rfl
  · rw [Function.update_of_ne hPlace]
    simp only [layout_eq_some_iff, ways]
    constructor <;> intro hx
    all_goals
      obtain ⟨way, n, seen, hOccupant⟩ := hx
      have hOther : x.id ≠ target := by
        intro hSame
        have wayTarget := (layout_eq_some_iff.mp standing).1
        exact hPlace (h.leads_unique h.root_isSome way (hSame.trans hTarget.symm ▸ wayTarget))
      refine ⟨way, n, ?_, hOccupant⟩
      simpa [govern_apply, hOther] using seen

end Govern

end View

/-- What stands at the places of the live tree. -/
def Tree.layout (t : Tree) : Layout := (t.view .live).layout

end TierTree
