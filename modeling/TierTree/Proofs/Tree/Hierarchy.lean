import Mathlib.Logic.Function.Basic
import Mathlib.Logic.Relation
import TierTree.Proofs.Tree.View

/-!
Views that form a tree. Parent links and entries of directories say the same,
and a child always has a later number than its parent, so that every walk up
or down comes to an end. The changes that edits make keep a view this way.
-/

namespace TierTree

namespace NodeId

theorem lt_wf : WellFounded (fun a b : NodeId => a < b) :=
  Subrelation.wf (fun h => UInt64.lt_iff_toNat_lt.mp h)
    (InvImage.wf (fun id : NodeId => id.raw.toNat) Nat.lt_wfRel.wf)

theorem ne_of_lt {a b : NodeId} (h : a < b) : a ≠ b := by
  rintro rfl
  exact KeyOrder.irrefl a h

end NodeId

namespace Node

theorem child?_eq_some_iff {n : Node} {name : String} {id : NodeId} :
    n.child? name = some id ↔ ∃ children, n.children? = some children ∧
      children.get? name = some id := Option.bind_eq_some_iff

theorem mem_childIds_iff {n : Node} {id : NodeId} :
    id ∈ n.childIds ↔ ∃ name, n.child? name = some id := by
  unfold childIds child?
  cases n.children? with
  | none => simp
  | some children =>
      simp only [SortedMap.values, List.mem_map, Prod.exists, exists_eq_right, Option.bind_some,
        SortedMap.mem_entries_iff]

theorem child?_congr {m n : Node} (h : m.content = n.content) (name : String) :
    m.child? name = n.child? name := by
  simp only [child?, children?, h]

theorem isDirectory_congr {m n : Node} (h : m.content = n.content) :
    m.isDirectory = n.isDirectory := by
  simp only [isDirectory, children?, h]

section MapChildren
variable (n : Node) (change : SortedMap String NodeId → SortedMap String NodeId)

theorem children?_mapChildren : (n.mapChildren change).children? = n.children?.map change := by
  obtain ⟨name, parent, policy, content⟩ := n
  cases content <;> rfl

@[simp] theorem name_mapChildren : (n.mapChildren change).name = n.name := by
  unfold mapChildren
  split <;> rfl

@[simp] theorem parent_mapChildren : (n.mapChildren change).parent = n.parent := by
  unfold mapChildren
  split <;> rfl

@[simp] theorem policy_mapChildren : (n.mapChildren change).policy = n.policy := by
  unfold mapChildren
  split <;> rfl

@[simp] theorem isDirectory_mapChildren : (n.mapChildren change).isDirectory = n.isDirectory := by
  simp [isDirectory, children?_mapChildren]

end MapChildren

theorem child?_insert {n : Node} (h : n.isDirectory = true) (name other : String) (id : NodeId) :
    (n.mapChildren (·.insert name id)).child? other =
      if other = name then some id else n.child? other := by
  obtain ⟨children, hChildren⟩ := Option.isSome_iff_exists.mp h
  simp [child?, children?_mapChildren, hChildren, SortedMap.get?_insert]

theorem child?_erase (n : Node) (name other : String) :
    (n.mapChildren (·.erase name)).child? other =
      if other = name then none else n.child? other := by
  simp only [child?, children?_mapChildren]
  cases n.children? with
  | none => simp
  | some children => simp [SortedMap.get?_erase]

end Node

namespace View

variable {v : View}

/-- Following `names` through the entries of directories leads from one node
to another. -/
inductive Leads (v : View) : NodeId → List String → NodeId → Prop
  | here (id : NodeId) : Leads v id [] id
  | into {id child dest : NodeId} {n : Node} {name : String} {rest : List String}
      (seen : v id = some n) (entry : n.child? name = some child)
      (further : Leads v child rest dest) : Leads v id (name :: rest) dest

namespace Leads

theorem append {a b c : NodeId} {cs ds : List String} (first : v.Leads a cs b)
    (second : v.Leads b ds c) : v.Leads a (cs ++ ds) c := by
  induction first with
  | here => exact second
  | into seen entry _ ih => exact into seen entry (ih second)

theorem snoc {a b c : NodeId} {cs : List String} {n : Node} {name : String}
    (first : v.Leads a cs b) (seen : v b = some n) (entry : n.child? name = some c) :
    v.Leads a (cs ++ [name]) c :=
  first.append (into seen entry (here c))

theorem deterministic {a b c : NodeId} {cs : List String} (first : v.Leads a cs b)
    (second : v.Leads a cs c) : b = c := by
  induction first with
  | here => cases second; rfl
  | into seen entry _ ih =>
      cases second with
      | into seen' entry' further =>
          rw [seen, Option.some.injEq] at seen'
          subst seen'
          rw [entry, Option.some.injEq] at entry'
          exact ih (entry' ▸ further)

theorem split {a c : NodeId} {cs ds : List String} (h : v.Leads a (cs ++ ds) c) :
    ∃ b, v.Leads a cs b ∧ v.Leads b ds c := by
  induction cs generalizing a with
  | nil => exact ⟨a, here a, h⟩
  | cons name rest ih =>
      cases h with
      | into seen entry further =>
          obtain ⟨b, hFirst, hSecond⟩ := ih further
          exact ⟨b, into seen entry hFirst, hSecond⟩

/-- The last step of a way, if it has any. -/
theorem last {a c : NodeId} {cs : List String} (h : v.Leads a cs c) :
    (cs = [] ∧ a = c) ∨ ∃ before name b n, cs = before ++ [name] ∧ v.Leads a before b ∧
      v b = some n ∧ n.child? name = some c := by
  rcases List.eq_nil_or_concat cs with rfl | ⟨before, name, rfl⟩
  · cases h
    exact .inl ⟨rfl, rfl⟩
  · rw [List.concat_eq_append] at h ⊢
    obtain ⟨b, hBefore, hLast⟩ := h.split
    cases hLast with
    | into seen entry further =>
        cases further
        exact .inr ⟨before, name, b, _, rfl, hBefore, seen, entry⟩

end Leads

/-- The parent that a node names. -/
def ParentOf (v : View) (parent id : NodeId) : Prop := ∃ n, v id = some n ∧ n.parent = some parent

/-- A view that forms a tree: the root is a directory, every other node is an
entry of its parent under its own name, and every entry is a node that names
this directory as its parent. -/
structure Hierarchy (v : View) : Prop where
  root : ∃ n, v .root = some n ∧ n.isDirectory = true ∧ n.parent = none
  up : ∀ {id n}, v id = some n → id ≠ .root →
    ∃ p pn, n.parent = some p ∧ p < id ∧ v p = some pn ∧ pn.child? n.name = some id
  down : ∀ {id n name child}, v id = some n → n.child? name = some child →
    Path.isValidName name = true ∧ ∃ cn, v child = some cn ∧ cn.name = name ∧ cn.parent = some id

namespace Hierarchy

theorem ne_root_of_parent (h : v.Hierarchy) {id parent : NodeId} {n : Node} (seen : v id = some n)
    (hParent : n.parent = some parent) : id ≠ .root := by
  rintro rfl
  obtain ⟨r, hRoot, _, hNone⟩ := h.root
  rw [seen, Option.some.injEq] at hRoot
  rw [← hRoot, hParent] at hNone
  cases hNone

/-- What a node says about its parent is true. -/
theorem up_of_parent (h : v.Hierarchy) {id parent : NodeId} {n : Node} (seen : v id = some n)
    (hParent : n.parent = some parent) :
    parent < id ∧ ∃ pn, v parent = some pn ∧ pn.child? n.name = some id := by
  obtain ⟨p, pn, hp, hLt, hSeen, hEntry⟩ := h.up seen (h.ne_root_of_parent seen hParent)
  rw [hParent, Option.some.injEq] at hp
  exact hp ▸ ⟨hLt, pn, hSeen, hEntry⟩

theorem lt_of_parentOf (h : v.Hierarchy) {parent id : NodeId} (hParent : v.ParentOf parent id) :
    parent < id := by
  obtain ⟨n, seen, hp⟩ := hParent
  exact (h.up_of_parent seen hp).1

theorem lt_of_child (h : v.Hierarchy) {id child : NodeId} {n : Node} {name : String}
    (seen : v id = some n) (entry : n.child? name = some child) : id < child := by
  obtain ⟨_, cn, hChild, _, hParent⟩ := h.down seen entry
  exact (h.up_of_parent hChild hParent).1

/-- The names on a way are names that entries may have. -/
theorem valid_of_leads (h : v.Hierarchy) {a b : NodeId} {cs : List String} (way : v.Leads a cs b) :
    ∀ name ∈ cs, Path.isValidName name = true := by
  induction way with
  | here => simp
  | into seen entry _ ih => exact List.forall_mem_cons.mpr ⟨(h.down seen entry).1, ih⟩

theorem le_of_leads (h : v.Hierarchy) {a b : NodeId} {cs : List String} (way : v.Leads a cs b) :
    a = b ∨ a < b := by
  induction way with
  | here => exact .inl rfl
  | into seen entry _ ih =>
      have hFirst := h.lt_of_child seen entry
      rcases ih with rfl | hRest
      · exact .inr hFirst
      · exact .inr (KeyOrder.trans hFirst hRest)

/-- No way leads back to an earlier node. -/
theorem not_leads_of_lt (h : v.Hierarchy) {a b : NodeId} (hLt : b < a) (cs : List String) :
    ¬ v.Leads a cs b := by
  intro way
  rcases h.le_of_leads way with rfl | hForth
  · exact KeyOrder.irrefl _ hLt
  · exact KeyOrder.irrefl _ (KeyOrder.trans hLt hForth)

theorem lt_of_leads_child (h : v.Hierarchy) {a b c : NodeId} {cs : List String} {n : Node}
    {name : String} (way : v.Leads a cs b) (seen : v b = some n) (entry : n.child? name = some c) :
    a < c := by
  have hLast := h.lt_of_child seen entry
  rcases h.le_of_leads way with rfl | hFirst
  · exact hLast
  · exact KeyOrder.trans hFirst hLast

/-- No chain of parent links comes back to where it began. -/
theorem acyclic (h : v.Hierarchy) (id : NodeId) : ¬ Relation.TransGen v.ParentOf id id := by
  have hLt : ∀ {a b}, Relation.TransGen v.ParentOf a b → a < b := by
    intro a b chain
    induction chain with
    | single link => exact h.lt_of_parentOf link
    | tail _ link ih => exact KeyOrder.trans ih (h.lt_of_parentOf link)
  exact fun chain => KeyOrder.irrefl id (hLt chain)

theorem seen_of_leads (h : v.Hierarchy) {a b : NodeId} {cs : List String} (way : v.Leads a cs b)
    (hStart : (v a).isSome) : ∃ n, v b = some n := by
  rcases way.last with ⟨_, rfl⟩ | ⟨_, _, _, _, _, _, seen, entry⟩
  · exact Option.isSome_iff_exists.mp hStart
  · obtain ⟨_, cn, hChild, _⟩ := h.down seen entry
    exact ⟨cn, hChild⟩

theorem root_isSome (h : v.Hierarchy) : (v .root).isSome = true := by
  obtain ⟨n, hRoot, _⟩ := h.root
  simp [hRoot]

/-- Every node is reached from the root. -/
theorem exists_leads (h : v.Hierarchy) {id : NodeId} {n : Node} (seen : v id = some n) :
    ∃ cs, v.Leads .root cs id := by
  induction id using NodeId.lt_wf.induction generalizing n with
  | _ id ih =>
      by_cases hRoot : id = .root
      · exact ⟨[], hRoot ▸ .here _⟩
      · obtain ⟨p, pn, _, hLt, hParent, hEntry⟩ := h.up seen hRoot
        obtain ⟨cs, way⟩ := ih p hLt hParent
        exact ⟨cs ++ [n.name], way.snoc hParent hEntry⟩

/-- The last step of a way comes from the parent, by the name of the node. -/
theorem leads_last (h : v.Hierarchy) {a c : NodeId} {cs : List String} {n : Node}
    (way : v.Leads a cs c) (seen : v c = some n) :
    (cs = [] ∧ a = c) ∨ ∃ before b, cs = before ++ [n.name] ∧ v.Leads a before b ∧
      n.parent = some b := by
  rcases way.last with hHere | ⟨before, name, b, bn, rfl, hBefore, hb, hEntry⟩
  · exact .inl hHere
  · obtain ⟨_, cn, hc, rfl, hParent⟩ := h.down hb hEntry
    rw [seen, Option.some.injEq] at hc
    exact .inr ⟨before, b, hc ▸ rfl, hBefore, hc ▸ hParent⟩

/-- There is only one way down from a node to another. -/
theorem leads_unique (h : v.Hierarchy) {a c : NodeId} (hStart : (v a).isSome)
    {cs ds : List String} (first : v.Leads a cs c) (second : v.Leads a ds c) : cs = ds := by
  induction c using NodeId.lt_wf.induction generalizing cs ds with
  | _ c ih =>
      obtain ⟨n, seen⟩ := h.seen_of_leads first hStart
      rcases h.leads_last first seen with ⟨rfl, rfl⟩ | ⟨before, b, rfl, hBefore, hParent⟩
      · rcases h.leads_last second seen with ⟨rfl, _⟩ | ⟨before', b', _, hBefore', hParent'⟩
        · rfl
        · have hLt := (h.up_of_parent seen hParent').1
          exact absurd hBefore' (h.not_leads_of_lt hLt before')
      · have hLt := (h.up_of_parent seen hParent).1
        rcases h.leads_last second seen with ⟨_, rfl⟩ | ⟨before', b', rfl, hBefore', hParent'⟩
        · exact absurd hBefore (h.not_leads_of_lt hLt before)
        · rw [hParent, Option.some.injEq] at hParent'
          subst hParent'
          rw [ih b hLt hBefore hBefore']

end Hierarchy

end View

end TierTree
