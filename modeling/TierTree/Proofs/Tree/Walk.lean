import TierTree.Proofs.Tree.Change
import TierTree.Tree.Plan

/-!
Walks over a view that forms a tree. The walk over a subtree ends and finds
exactly the nodes below its start, and the walk for a policy ends with the
nearest one above a node.
-/

namespace TierTree

/-- A count over a list grows strictly with the class that is counted. -/
theorem countP_lt_countP {α : Type} {l : List α} {p q : α → Bool}
    (h : ∀ x ∈ l, p x = true → q x = true) {a : α} (ha : a ∈ l) (hq : q a = true)
    (hp : p a = false) : l.countP p < l.countP q := by
  induction l with
  | nil => cases ha
  | cons x rest ih =>
      have hRest : ∀ y ∈ rest, p y = true → q y = true :=
        fun y hy => h y (List.mem_cons_of_mem _ hy)
      rw [List.countP_cons, List.countP_cons]
      rcases List.mem_cons.mp ha with rfl | ha
      · have hLe := List.countP_mono_left hRest
        simp only [hp, hq, if_true, Bool.false_eq_true, if_false]
        omega
      · have hLt := ih hRest ha
        have hx := h x (List.mem_cons_self ..)
        cases hpx : p x with
        | false =>
            simp only [Bool.false_eq_true, if_false]
            omega
        | true =>
            rw [if_pos rfl, if_pos (hx hpx)]
            omega

namespace Tree

variable {t : Tree}

theorem mem_keys_of_view {layer : Layer} {id : NodeId} {n : Node}
    (seen : t.view layer id = some n) : id ∈ t.timelines.keys := by
  rw [SortedMap.mem_keys_iff]
  unfold view node? at seen
  cases hLine : t.timelines.get? id with
  | none => simp [hLine] at seen
  | some line => rfl

/-- How many nodes are kept from this number on. -/
def nodesFrom (t : Tree) (id : NodeId) : Nat := t.timelines.keys.countP fun j => ¬ j < id

/-- How many nodes are kept up to this number. -/
def nodesUpTo (t : Tree) (id : NodeId) : Nat := t.timelines.keys.countP fun j => ¬ id < j

theorem nodesFrom_lt {a b : NodeId} (h : a < b) (ha : a ∈ t.timelines.keys) :
    t.nodesFrom b < t.nodesFrom a := by
  refine countP_lt_countP (fun j _ hj => ?_) ha (by simpa using KeyOrder.irrefl a)
    (by simpa using h)
  simp only [decide_eq_true_eq] at hj ⊢
  exact fun hLt => hj (KeyOrder.trans hLt h)

theorem nodesUpTo_lt {a b : NodeId} (h : a < b) (hb : b ∈ t.timelines.keys) :
    t.nodesUpTo a < t.nodesUpTo b := by
  refine countP_lt_countP (fun j _ hj => ?_) hb (by simpa using KeyOrder.irrefl b)
    (by simpa using h)
  simp only [decide_eq_true_eq] at hj ⊢
  exact fun hLt => hj (KeyOrder.trans h hLt)

theorem length_keys (t : Tree) : t.timelines.keys.length = t.timelines.size := List.length_map ..

section Levels

/-- The entries of a node of the live tree. -/
def entryIds (t : Tree) (id : NodeId) : List NodeId :=
  match t.node? id .live with
  | some n => n.childIds
  | none => []

theorem levels_succ (depth : Nat) (id : NodeId) (ids : List NodeId) :
    t.levels (depth + 1) (id :: ids) =
      (t.levels depth ((id :: ids).flatMap t.entryIds)).map ((id :: ids) ++ ·) := by
  change (t.levels depth ((id :: ids).flatMap t.entryIds)).bind _ = _
  cases t.levels depth ((id :: ids).flatMap t.entryIds) <;> rfl

theorem mem_entryIds_iff {id child : NodeId} :
    child ∈ t.entryIds id ↔ ∃ n, t.view .live id = some n ∧ ∃ name, n.child? name = some child := by
  unfold entryIds view
  cases t.node? id .live with
  | none => simp
  | some n => simp [Node.mem_childIds_iff]

/-- A queue of nodes is worked off: the first one is noted, and its entries are put
at the end. -/
inductive Drains (t : Tree) : List NodeId → List NodeId → Prop
  | done : Drains t [] []
  | next {id : NodeId} {queue found : List NodeId}
      (further : Drains t (queue ++ t.entryIds id) found) : Drains t (id :: queue) (id :: found)

/-- The nodes in front of a queue are worked off before their entries. -/
theorem Drains.front {front back found : List NodeId}
    (h : t.Drains (back ++ front.flatMap t.entryIds) found) :
    t.Drains (front ++ back) (front ++ found) := by
  induction front generalizing back with
  | nil => simpa using h
  | cons id rest ih =>
      have hRest : t.Drains (rest ++ (back ++ t.entryIds id)) (rest ++ found) := by
        refine ih ?_
        rwa [List.append_assoc, ← List.flatMap_cons]
      rw [← List.append_assoc] at hRest
      exact .next hRest

/-- The walk by levels comes to the nodes in the order of a queue. -/
theorem drains_of_levels {depth : Nat} {ids found : List NodeId}
    (hFound : t.levels depth ids = .ok found) : t.Drains ids found := by
  induction depth generalizing ids found with
  | zero =>
      cases ids with
      | nil =>
          cases hFound
          exact .done
      | cons first rest => cases hFound
  | succ depth ih =>
      cases ids with
      | nil =>
          cases hFound
          exact .done
      | cons first rest =>
          rw [levels_succ, map_eq_ok_iff] at hFound
          obtain ⟨deeper, hDeeper, rfl⟩ := hFound
          have hEntries : t.Drains ([] ++ (first :: rest).flatMap t.entryIds) deeper := ih hDeeper
          have hFront := hEntries.front
          rwa [List.append_nil] at hFront

/-- A queue that is worked off has led to what is below its nodes and to nothing
else. -/
theorem Drains.mem_iff {queue found : List NodeId} (h : t.Drains queue found) {j : NodeId} :
    j ∈ found ↔ ∃ id ∈ queue, (t.view .live).Below id j := by
  induction h with
  | done => simp
  | @next id queue found _ ih =>
      rw [List.mem_cons, ih]
      constructor
      · rintro (rfl | ⟨i, hi, cs, way⟩)
        · exact ⟨j, List.mem_cons_self, .refl _ j⟩
        · rcases List.mem_append.mp hi with hi | hEntry
          · exact ⟨i, List.mem_cons_of_mem _ hi, cs, way⟩
          · obtain ⟨n, seen, name, entry⟩ := mem_entryIds_iff.mp hEntry
            exact ⟨id, List.mem_cons_self, name :: cs, .into seen entry way⟩
      · rintro ⟨i, hi, cs, way⟩
        rcases List.mem_cons.mp hi with rfl | hi
        · cases way with
          | here => exact .inl rfl
          | into seen entry further =>
              have hEntry := mem_entryIds_iff.mpr ⟨_, seen, _, entry⟩
              exact .inr ⟨_, List.mem_append_right _ hEntry, _, further⟩
        · exact .inr ⟨i, List.mem_append_left _ hi, cs, way⟩

/-- The walk by levels ends when no start has more nodes after it than there
are levels. -/
theorem exists_levels (h : (t.view .live).Hierarchy) {depth : Nat} {ids : List NodeId}
    (hIds : ∀ id ∈ ids, (t.view .live id).isSome ∧ t.nodesFrom id ≤ depth) :
    ∃ found, t.levels depth ids = .ok found := by
  induction depth generalizing ids with
  | zero =>
      cases ids with
      | nil => exact ⟨[], rfl⟩
      | cons id rest =>
          obtain ⟨hSeen, hNone⟩ := hIds id (List.mem_cons_self ..)
          obtain ⟨n, hn⟩ := Option.isSome_iff_exists.mp hSeen
          have hSelf : 0 < t.nodesFrom id :=
            List.countP_pos_iff.mpr ⟨id, mem_keys_of_view hn, by simpa using KeyOrder.irrefl id⟩
          omega
  | succ depth ih =>
      cases ids with
      | nil => exact ⟨[], rfl⟩
      | cons first rest =>
          have hNext : ∀ child ∈ (first :: rest).flatMap t.entryIds,
              (t.view .live child).isSome ∧ t.nodesFrom child ≤ depth := by
            intro child hChild
            obtain ⟨i, hi, hEntry⟩ := List.mem_flatMap.mp hChild
            obtain ⟨n, seen, name, entry⟩ := mem_entryIds_iff.mp hEntry
            obtain ⟨_, cn, hSeen, _⟩ := h.down seen entry
            have hFewer := nodesFrom_lt (h.lt_of_child seen entry) (mem_keys_of_view seen)
            have hBound := (hIds i hi).2
            exact ⟨by rw [hSeen]; rfl, by omega⟩
          obtain ⟨deeper, hDeeper⟩ := ih hNext
          exact ⟨(first :: rest) ++ deeper, by rw [levels_succ, hDeeper]; rfl⟩

/-- The walk over a subtree finds exactly the nodes below its start. -/
theorem subtree_spec (h : (t.view .live).Hierarchy) {id : NodeId} {n : Node}
    (seen : t.view .live id = some n) :
    ∃ found, t.subtree id = .ok found ∧ ∀ j, j ∈ found ↔ (t.view .live).Below id j := by
  have hBound : t.nodesFrom id ≤ t.timelines.size + 1 := by
    have hAll := List.countP_le_length (p := fun j => decide ¬ j < id) (l := t.timelines.keys)
    rw [t.length_keys] at hAll
    exact Nat.le_succ_of_le hAll
  have hStart : ∀ j ∈ [id], (t.view .live j).isSome ∧ t.nodesFrom j ≤ t.timelines.size + 1 := by
    simpa [seen] using hBound
  obtain ⟨found, hFound⟩ := exists_levels h hStart
  exact ⟨found, hFound, fun j => by rw [(drains_of_levels hFound).mem_iff]; simp⟩

end Levels

end Tree

namespace Layer

/-- Where the walk for a policy ends. -/
def top : Layer → NodeId
  | live => .root
  | frozen root _ _ => root

/-- What is in force at the end of the walk when nothing on the way has a
policy. -/
def inherited : Layer → PolicyId
  | live => .unspecified
  | frozen _ _ inherited => inherited

end Layer

/-- The policy in force for a node: its own or the nearest one above it. When
`top` is reached without one, `inherited` is in force. -/
inductive View.InForce (v : View) (top : NodeId) (inherited : PolicyId) : NodeId → PolicyId → Prop
  | own {id : NodeId} {n : Node} (seen : v id = some n) (explicit : n.policy ≠ .unspecified) :
      InForce v top inherited id n.policy
  | top {n : Node} (seen : v top = some n) (silent : n.policy = .unspecified) :
      InForce v top inherited top inherited
  | above {id parent : NodeId} {n : Node} {policy : PolicyId} (seen : v id = some n)
      (silent : n.policy = .unspecified) (inside : id ≠ top) (link : n.parent = some parent)
      (further : InForce v top inherited parent policy) : InForce v top inherited id policy

theorem View.InForce.deterministic {v : View} {top id : NodeId} {inherited p q : PolicyId}
    (first : v.InForce top inherited id p) (second : v.InForce top inherited id q) : p = q := by
  induction first with
  | own seen explicit =>
      cases second with
      | own seen' => rw [seen, Option.some.injEq] at seen'; rw [seen']
      | top seen' silent =>
          rw [seen, Option.some.injEq] at seen'
          exact absurd (seen' ▸ silent) explicit
      | above seen' silent =>
          rw [seen, Option.some.injEq] at seen'
          exact absurd (seen' ▸ silent) explicit
  | top seen silent =>
      cases second with
      | own seen' explicit =>
          rw [seen, Option.some.injEq] at seen'
          exact absurd (seen' ▸ silent) explicit
      | top => rfl
      | above _ _ inside => exact absurd rfl inside
  | above seen silent inside link _ ih =>
      cases second with
      | own seen' explicit =>
          rw [seen, Option.some.injEq] at seen'
          exact absurd (seen' ▸ silent) explicit
      | top => exact absurd rfl inside
      | above seen' _ _ link' further =>
          rw [seen, Option.some.injEq] at seen'
          subst seen'
          rw [link, Option.some.injEq] at link'
          exact ih (link' ▸ further)

namespace Tree

variable {t : Tree} {layer : Layer} {id : NodeId} {n : Node}

section PolicyStep

theorem policyStep_own (seen : t.view layer id = some n) (explicit : n.policy ≠ .unspecified) :
    t.policyStep layer id = .inl n.policy := by
  unfold view at seen
  simp [policyStep, seen, explicit]

theorem policyStep_top (h : (t.view layer).Hierarchy) (seen : t.view layer layer.top = some n)
    (silent : n.policy = .unspecified) :
    t.policyStep layer layer.top = .inl layer.inherited := by
  cases layer with
  | live =>
      obtain ⟨r, hRoot, _, hNone⟩ := h.root
      rw [Layer.top, hRoot, Option.some.injEq] at seen
      subst seen
      unfold view at hRoot
      simp [policyStep, Layer.top, Layer.inherited, hRoot, silent, hNone]
  | frozen root epoch inherited =>
      have hSeen : t.node? root (.frozen root epoch inherited) = some n := seen
      simp [policyStep, hSeen, silent, Layer.top, Layer.inherited]

theorem policyStep_above (seen : t.view layer id = some n) (silent : n.policy = .unspecified)
    (inside : id ≠ layer.top) {parent : NodeId} (link : n.parent = some parent) :
    t.policyStep layer id = .inr parent := by
  unfold view at seen
  cases layer with
  | live => simp [policyStep, seen, silent, link]
  | frozen root epoch inherited => simp [policyStep, seen, silent, link, show id ≠ root from inside]

end PolicyStep

/-- The walk for a policy ends when it may ask as many nodes as there are up to
its start, and its answer is the policy in force. -/
theorem policyWalk_spec (h : (t.view layer).Hierarchy) {steps : Nat}
    (below : (t.view layer).Below layer.top id) (seen : t.view layer id = some n)
    (hSteps : t.nodesUpTo id ≤ steps) :
    ∃ policy, t.policyWalk layer steps id = .ok policy ∧
      (t.view layer).InForce layer.top layer.inherited id policy := by
  induction steps generalizing id n with
  | zero =>
      have hSelf : 0 < t.nodesUpTo id :=
        List.countP_pos_iff.mpr ⟨id, mem_keys_of_view seen, by simpa using KeyOrder.irrefl id⟩
      omega
  | succ steps ih =>
      by_cases silent : n.policy = .unspecified
      · by_cases hTop : id = layer.top
        · subst hTop
          refine ⟨layer.inherited, ?_, .top seen silent⟩
          simp [policyWalk, policyStep_top h seen silent]
        · obtain hSame | ⟨parent, link, hBelow⟩ := h.below_parent below seen
          · exact absurd hSame.symm hTop
          obtain ⟨hLt, pn, hParent, _⟩ := h.up_of_parent seen link
          have hFewer := nodesUpTo_lt hLt (mem_keys_of_view seen)
          obtain ⟨policy, hWalk, hForce⟩ := ih hBelow hParent (by omega)
          refine ⟨policy, ?_, .above seen silent hTop link hForce⟩
          simp [policyWalk, policyStep_above seen silent hTop link, hWalk]
      · refine ⟨n.policy, ?_, .own seen silent⟩
        simp [policyWalk, policyStep_own seen silent]

/-- Every node below the top of a layer has a policy in force, and the walk
finds it. -/
theorem effectivePolicy_spec (h : (t.view layer).Hierarchy)
    (below : (t.view layer).Below layer.top id) (seen : t.view layer id = some n) :
    ∃ policy, t.effectivePolicy id layer = .ok policy ∧
      (t.view layer).InForce layer.top layer.inherited id policy := by
  refine policyWalk_spec h below seen ?_
  have hAll := List.countP_le_length (p := fun j => decide ¬ id < j) (l := t.timelines.keys)
  rw [t.length_keys] at hAll
  exact Nat.le_succ_of_le hAll

/-- The policy in force for a node of the live tree. -/
theorem effectivePolicy_live (h : (t.view .live).Hierarchy) (seen : t.view .live id = some n) :
    ∃ policy, t.effectivePolicy id .live = .ok policy ∧
      (t.view .live).InForce .root .unspecified id policy :=
  effectivePolicy_spec h (h.exists_leads seen) seen

/-- What a directory inherits is in force for its parent. The root inherits
nothing. -/
theorem inheritedPolicy_spec (h : (t.view .live).Hierarchy) (seen : t.view .live id = some n) :
    ∃ policy, t.inheritedPolicy id = .ok policy ∧
      ((id = .root ∧ policy = .unspecified) ∨ ∃ parent, n.parent = some parent ∧
        (t.view .live).InForce .root .unspecified parent policy) := by
  have hNode : t.node? id .live = some n := seen
  unfold inheritedPolicy
  cases hParent : n.parent with
  | none =>
      refine ⟨.unspecified, by simp [hNode, hParent], .inl ⟨?_, rfl⟩⟩
      by_contra hRoot
      obtain ⟨p, _, hp, _⟩ := h.up seen hRoot
      rw [hParent] at hp
      cases hp
  | some parent =>
      obtain ⟨_, pn, hSeen, _⟩ := h.up_of_parent seen hParent
      obtain ⟨policy, hPolicy, hForce⟩ := effectivePolicy_live h hSeen
      exact ⟨policy, by simp [hNode, hParent, hPolicy], .inr ⟨parent, rfl, hForce⟩⟩

end Tree

end TierTree
