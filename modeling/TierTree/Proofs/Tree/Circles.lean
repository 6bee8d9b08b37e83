import Mathlib.Logic.Relation
import TierTree.Proofs.Tree.Capacity
import TierTree.Proofs.Tree.Restore

/-!
Walks in trees restored from images of any origin. A walk ends just where the
links that it follows do not lead into a circle. An image with a circle of
links is accepted.
-/

namespace TierTree

open Relation (ReflTransGen TransGen)

section Links
variable {α : Type} {R : α → α → Prop} {a b c : α} {n : Nat}

/-- A number of links in a row. -/
inductive Links (R : α → α → Prop) : Nat → α → α → Prop
  | here (a : α) : Links R 0 a a
  | link {a b c : α} {n : Nat} (first : R a b) (further : Links R n b c) : Links R (n + 1) a c

/-- Links that lead into a circle. -/
def Circular (R : α → α → Prop) (a : α) : Prop := ∃ b, ReflTransGen R a b ∧ TransGen R b b

theorem Links.cut (h : Links R (n + 1) a b) : ∃ c, Links R n a c := by
  induction n generalizing a with
  | zero => exact ⟨a, .here a⟩
  | succ n ih =>
      cases h with
      | link first further =>
          obtain ⟨c, hShort⟩ := ih further
          exact ⟨c, .link first hShort⟩

theorem Links.behind (h : ReflTransGen R a b) (further : ∃ c, Links R n b c) :
    ∃ c, Links R n a c := by
  induction h using ReflTransGen.head_induction_on with
  | refl => exact further
  | head first _ ih =>
      obtain ⟨c, hLinks⟩ := ih
      exact (Links.link first hLinks).cut

/-- Links that lead into a circle go on for ever. -/
theorem Circular.exists_links (h : Circular R a) (n : Nat) : ∃ b, Links R n a b := by
  obtain ⟨b, hThere, hBack⟩ := h
  refine Links.behind hThere ?_
  induction n with
  | zero => exact ⟨b, .here b⟩
  | succ n ih =>
      obtain ⟨c, hFirst, hRest⟩ := TransGen.head'_iff.mp hBack
      obtain ⟨d, hLinks⟩ := Links.behind hRest ih
      exact ⟨d, .link hFirst hLinks⟩

/-- Where only so many have links, more links in a row come back to one of
them. -/
theorem Links.circular {sources : List α} (hSources : ∀ {a b}, R a b → a ∈ sources)
    (h : Links R n a b) (hLong : sources.length < n) : Circular R a := by
  suffices general : ∀ passed : List α, passed.Nodup → passed ⊆ sources →
      (∀ p ∈ passed, TransGen R p a) → sources.length < passed.length + n → Circular R a from
    general [] List.nodup_nil (List.nil_subset _) (by simp) (by simpa using hLong)
  clear hLong
  induction h with
  | here a =>
      intro passed hNodup hPassed _ hLong
      have hShort := (hNodup.subperm hPassed).length_le
      omega
  | @link a b c n first further ih =>
      intro passed hNodup hPassed hLead hLong
      by_cases hBack : a ∈ passed
      · exact ⟨a, .refl, hLead a hBack⟩
      · obtain ⟨d, hThere, hCircle⟩ := ih (a :: passed) (List.nodup_cons.mpr ⟨hBack, hNodup⟩)
          (List.cons_subset.mpr ⟨hSources first, hPassed⟩)
          (List.forall_mem_cons.mpr ⟨.single first, fun p hMem => (hLead p hMem).tail first⟩)
          (by rw [List.length_cons]; omega)
        exact ⟨d, .head first hThere, hCircle⟩

/-- Links that only go one way in an order lead into no circle. -/
theorem not_circular {S : α → α → Prop} (hIrrefl : ∀ a, ¬ S a a)
    (hTrans : ∀ {a b c}, S a b → S b c → S a c) (hOrder : ∀ {a b}, R a b → S a b) :
    ¬ Circular R a := by
  rintro ⟨b, -, hCircle⟩
  have hForward : ∀ {c}, TransGen R b c → S b c := by
    intro c chain
    induction chain with
    | single link => exact hOrder link
    | tail _ link ih => exact hTrans ih (hOrder link)
  exact hIrrefl b (hForward hCircle)

/-- A walk that is cut short just where so many links follow one another. It ends
after some number of steps just where these do not lead into a circle, and a
step more than there are sources tells the two cases apart. -/
theorem ends_iff {β : Type} {walk : Nat → Except Fault β} {sources : List α}
    (hSources : ∀ {a b}, R a b → a ∈ sources)
    (hWalk : ∀ {steps f}, walk steps = .error f ↔ f = .endless ∧ ∃ b, Links R steps a b) :
    ((∃ steps result, walk steps = .ok result) ↔ ¬ Circular R a) ∧
      (walk (sources.length + 1) = .error .endless ↔ Circular R a) := by
  have hBound : walk (sources.length + 1) = .error .endless ↔ Circular R a := by
    rw [hWalk]
    constructor
    · rintro ⟨-, b, hLinks⟩
      exact hLinks.circular hSources (Nat.lt_succ_self _)
    · exact fun hCircle => ⟨rfl, hCircle.exists_links _⟩
  refine ⟨⟨?_, ?_⟩, hBound⟩
  · rintro ⟨steps, result, hDone⟩ hCircle
    cases hDone.symm.trans (hWalk.mpr ⟨rfl, hCircle.exists_links steps⟩)
  · intro hStraight
    cases hDone : walk (sources.length + 1) with
    | ok result => exact ⟨_, result, hDone⟩
    | error f =>
        obtain ⟨rfl, -⟩ := hWalk.mp hDone
        exact absurd (hBound.mp hDone) hStraight

end Links

/-- What a record shows through a layer: its last version, or the last one that
is not later than a snapshot. -/
def NodeRecord.shown (r : NodeRecord) : Layer → Option Node
  | .live => r.versions.getLast?.bind (·.state)
  | .frozen _ epoch _ => (r.versions.filter (·.since ≤ epoch)).getLast?.bind (·.state)

namespace Image

/-- A record without a policy of its own names its parent, and is not the
directory that a snapshot was taken of. -/
def Asks (image : Image) (layer : Layer) (id parent : NodeId) : Prop :=
  ∃ r ∈ image.nodes, r.id = id ∧ ∃ n, r.shown layer = some n ∧ n.policy = .unspecified ∧
    n.parent = some parent ∧ ∀ epoch inherited, layer ≠ .frozen id epoch inherited

/-- A record shows a directory with an entry for a node. -/
def Holds (image : Image) (id child : NodeId) : Prop :=
  ∃ r ∈ image.nodes, r.id = id ∧ ∃ n, r.shown .live = some n ∧
    ∃ name, n.child? name = some child

end Image

namespace Tree
variable {t : Tree} {layer : Layer} {id : NodeId}

/-- A node that leaves the question for the policy in force to its parent. -/
def Asks (t : Tree) (layer : Layer) (id parent : NodeId) : Prop :=
  t.policyStep layer id = .inr parent

/-- A node of the live tree and one of its entries. -/
def Holds (t : Tree) (id child : NodeId) : Prop := child ∈ t.entryIds id

theorem asks_iff {parent : NodeId} :
    t.Asks layer id parent ↔ ∃ n, t.node? id layer = some n ∧ n.policy = .unspecified ∧
      n.parent = some parent ∧ ∀ epoch inherited, layer ≠ .frozen id epoch inherited := by
  unfold Asks policyStep
  cases hSeen : t.node? id layer with
  | none => simp
  | some n =>
      by_cases hSilent : n.policy = .unspecified
      · cases layer with
        | live => cases hParent : n.parent <;> simp [hSilent, hParent]
        | frozen root epoch inherited =>
            by_cases hTop : id = root
            · simp [hSilent, hTop]
            · cases hParent : n.parent <;> simp [hSilent, hTop, hParent, Ne.symm hTop]
      · simp [hSilent]

theorem Asks.mem_keys {parent : NodeId} (h : t.Asks layer id parent) : id ∈ t.timelines.keys := by
  obtain ⟨n, hSeen, -⟩ := asks_iff.mp h
  exact mem_keys_of_view hSeen

theorem Holds.mem_keys {child : NodeId} (h : t.Holds id child) : id ∈ t.timelines.keys := by
  obtain ⟨n, hSeen, -⟩ := mem_entryIds_iff.mp h
  exact mem_keys_of_view hSeen

/-- The walk for a policy is cut short just where so many nodes ask in a row. -/
theorem policyWalk_error_iff {steps : Nat} {f : Fault} :
    t.policyWalk layer steps id = .error f ↔
      f = .endless ∧ ∃ last, Links (t.Asks layer) steps id last := by
  induction steps generalizing id with
  | zero =>
      constructor
      · intro h
        cases h
        exact ⟨rfl, id, .here id⟩
      · rintro ⟨rfl, -⟩
        rfl
  | succ steps ih =>
      rw [policyWalk]
      split
      next answer hStep =>
        refine ⟨fun h => (by cases h), ?_⟩
        rintro ⟨-, last, hLinks⟩
        cases hLinks with
        | link first _ => cases hStep.symm.trans first
      next parent hStep =>
        rw [ih]
        refine and_congr_right fun _ => exists_congr fun last => ?_
        constructor
        · exact .link hStep
        · intro hLinks
          cases hLinks with
          | link first further =>
              cases hStep.symm.trans first
              exact further

/-- The walk by levels is cut short just where so many entries follow one
another. -/
theorem levels_error_iff {depth : Nat} {ids : List NodeId} {f : Fault} :
    t.levels depth ids = .error f ↔
      f = .endless ∧ ∃ id ∈ ids, ∃ last, Links t.Holds depth id last := by
  induction depth generalizing ids with
  | zero =>
      cases ids with
      | nil => simp [levels]
      | cons id rest =>
          constructor
          · intro h
            cases h
            exact ⟨rfl, id, List.mem_cons_self, id, .here id⟩
          · rintro ⟨rfl, -⟩
            rfl
  | succ depth ih =>
      cases ids with
      | nil => simp [levels]
      | cons id rest =>
          have hMap (call : Except Fault (List NodeId)) :
              call.map ((id :: rest) ++ ·) = .error f ↔ call = .error f := by
            cases call <;> simp [Except.map]
          rw [levels_succ, hMap, ih]
          refine and_congr_right fun _ => ⟨?_, ?_⟩
          · rintro ⟨child, hChild, last, hLinks⟩
            obtain ⟨i, hi, hEntry⟩ := List.mem_flatMap.mp hChild
            exact ⟨i, hi, last, .link hEntry hLinks⟩
          · rintro ⟨i, hi, last, hLinks⟩
            cases hLinks with
            | link first further =>
                exact ⟨_, List.mem_flatMap.mpr ⟨i, hi, first⟩, last, further⟩

theorem policyWalk_ends_iff :
    ((∃ steps policy, t.policyWalk layer steps id = .ok policy) ↔ ¬ Circular (t.Asks layer) id) ∧
      (t.effectivePolicy id layer = .error .endless ↔ Circular (t.Asks layer) id) := by
  have hEnds := ends_iff (a := id) (R := t.Asks layer) Asks.mem_keys policyWalk_error_iff
  rwa [t.length_keys] at hEnds

theorem levels_end_iff :
    ((∃ depth ids, t.levels depth [id] = .ok ids) ↔ ¬ Circular t.Holds id) ∧
      (t.subtree id = .error .endless ↔ Circular t.Holds id) := by
  have hWalk {depth : Nat} {f : Fault} : t.levels depth [id] = .error f ↔
      f = .endless ∧ ∃ last, Links t.Holds depth id last := by
    simp [levels_error_iff]
  have hEnds := ends_iff Holds.mem_keys hWalk
  rwa [t.length_keys] at hEnds

section Reached

theorem asks_not_circular (h : (t.view layer).Hierarchy) : ¬ Circular (t.Asks layer) id := by
  refine not_circular (S := fun a b => b < a) KeyOrder.irrefl
    (fun first second => KeyOrder.trans second first) fun {a b} hAsks => ?_
  obtain ⟨n, hSeen, -, hParent, -⟩ := asks_iff.mp hAsks
  exact h.lt_of_parentOf ⟨n, hSeen, hParent⟩

theorem holds_not_circular (h : (t.view .live).Hierarchy) : ¬ Circular t.Holds id := by
  refine not_circular (S := fun a b => a < b) KeyOrder.irrefl KeyOrder.trans fun {a b} hHolds => ?_
  obtain ⟨n, hSeen, name, hEntry⟩ := mem_entryIds_iff.mp hHolds
  exact h.lt_of_child hSeen hEntry

end Reached

section Restored
variable {image : Image}

theorem shown_record (id : NodeId) (line : Timeline) :
    NodeRecord.shown ⟨id, line.versions⟩ layer =
      match layer with
      | .live => line.current
      | .frozen _ epoch _ => line.stateAt epoch := by
  cases layer with
  | live => simp [NodeRecord.shown, Timeline.versions, Timeline.current]
  | frozen root epoch inherited =>
      simp only [NodeRecord.shown, Timeline.versions, Timeline.stateAt]
      rw [List.filter_reverse, List.getLast?_reverse, List.head?_filter]

theorem node?_of_ofImage (h : ofImage image = .ok t) {n : Node} :
    t.node? id layer = some n ↔ ∃ r ∈ image.nodes, r.id = id ∧ r.shown layer = some n := by
  constructor
  · intro hSeen
    cases hLine : t.timelines.get? id with
    | none => simp [node?, hLine] at hSeen
    | some line =>
        refine ⟨⟨id, line.versions⟩, (mem_nodes_of_ofImage h).mpr ⟨line, hLine, rfl⟩, rfl, ?_⟩
        simp only [node?, hLine] at hSeen
        rw [shown_record]
        cases layer <;> exact hSeen
  · rintro ⟨⟨_, _⟩, hMem, rfl, hShown⟩
    obtain ⟨line, hLine, rfl⟩ := (mem_nodes_of_ofImage h).mp hMem
    rw [shown_record] at hShown
    simp only [node?, hLine]
    cases layer <;> exact hShown

theorem asks_of_ofImage (h : ofImage image = .ok t) : t.Asks layer = image.Asks layer := by
  funext id parent
  refine propext (asks_iff.trans ⟨?_, ?_⟩)
  · rintro ⟨n, hSeen, hAsks⟩
    obtain ⟨r, hMem, hId, hShown⟩ := (node?_of_ofImage h).mp hSeen
    exact ⟨r, hMem, hId, n, hShown, hAsks⟩
  · rintro ⟨r, hMem, hId, n, hShown, hAsks⟩
    exact ⟨n, (node?_of_ofImage h).mpr ⟨r, hMem, hId, hShown⟩, hAsks⟩

theorem holds_of_ofImage (h : ofImage image = .ok t) : t.Holds = image.Holds := by
  funext id child
  refine propext (mem_entryIds_iff.trans ⟨?_, ?_⟩)
  · rintro ⟨n, hSeen, hEntry⟩
    obtain ⟨r, hMem, hId, hShown⟩ := (node?_of_ofImage h).mp hSeen
    exact ⟨r, hMem, hId, n, hShown, hEntry⟩
  · rintro ⟨r, hMem, hId, n, hShown, hEntry⟩
    exact ⟨n, (node?_of_ofImage h).mpr ⟨r, hMem, hId, hShown⟩, hEntry⟩

/-- The walks in a tree restored from any image that is accepted. The walk for the
policy in force ends just where the nodes that ask their parents do not lead into
a circle, and the walk over a subtree just where the entries do not. In an image
of a tree that edits lead to none of them do, through any layer. -/
theorem walks_end_iff (h : ofImage image = .ok t) (id : NodeId) :
    (∀ layer,
      ((∃ steps policy, t.policyWalk layer steps id = .ok policy) ↔
        ¬ Circular (image.Asks layer) id) ∧
      (t.effectivePolicy id layer = .error .endless ↔ Circular (image.Asks layer) id)) ∧
    ((∃ depth ids, t.levels depth [id] = .ok ids) ↔ ¬ Circular image.Holds id) ∧
    (t.subtree id = .error .endless ↔ Circular image.Holds id) ∧
    ∀ edits, new.run edits = .ok t → ¬ Circular image.Holds id ∧
      ∀ layer, (layer = .live ∨ ∃ s ∈ t.shelf.toList, layer = s.layer) →
        ¬ Circular (image.Asks layer) id := by
  rw [← holds_of_ofImage h]
  simp only [← asks_of_ofImage h]
  refine ⟨fun layer => policyWalk_ends_iff, levels_end_iff.1, levels_end_iff.2, ?_⟩
  intro edits hRun
  have hSound := (run_sound new_sound hRun).1
  refine ⟨holds_not_circular hSound.live, ?_⟩
  rintro layer (rfl | ⟨s, hs, rfl⟩)
  · exact asks_not_circular hSound.live
  · exact asks_not_circular (hSound.frozen s hs)

/-- Two nodes may each be the parent of the other, away from the root. The walk
from the root ends, and those from the two do not. -/
theorem walks_end_iff_away_from_circle :
    ∃ image t, ofImage image = .ok t ∧
      (∃ steps policy, t.policyWalk .live steps .root = .ok policy) ∧
      ¬ Circular (image.Asks .live) .root ∧
      t.effectivePolicy ⟨3⟩ .live = .error .endless ∧ Circular (image.Asks .live) ⟨3⟩ := by
  obtain ⟨image, t, hImage, policy, hRoot, hEndless⟩ : ∃ image t, ofImage image = .ok t ∧
      ∃ policy, t.policyWalk .live 1 .root = .ok policy ∧
        t.effectivePolicy ⟨3⟩ .live = .error .endless :=
    ⟨⟨0, ⟨5⟩, [⟨.root, [⟨0, some (.newDirectory "" none)⟩]⟩,
      ⟨⟨3⟩, [⟨0, some (.newDirectory "a" (some ⟨4⟩))⟩]⟩,
      ⟨⟨4⟩, [⟨0, some (.newDirectory "b" (some ⟨3⟩))⟩]⟩], []⟩, _, rfl, _, rfl, rfl⟩
  obtain ⟨hEnds, -⟩ := (walks_end_iff hImage .root).1 .live
  obtain ⟨-, hCircle⟩ := (walks_end_iff hImage ⟨3⟩).1 .live
  exact ⟨image, t, hImage, ⟨1, policy, hRoot⟩, hEnds.mp ⟨1, policy, hRoot⟩, hEndless,
    hCircle.mp hEndless⟩

/-- An image whose root is its own parent and its own entry is accepted, and
neither walk from the root ever ends. -/
theorem root_within_itself :
    ∃ image t, ofImage image = .ok t ∧
      image.nodes = [⟨.root, [⟨0, some
        ((Node.newDirectory "" (some .root)).mapChildren (·.insert "a" .root))⟩]⟩] ∧
      (∀ steps policy, t.policyWalk .live steps .root ≠ .ok policy) ∧
      ∀ depth ids, t.levels depth [.root] ≠ .ok ids := by
  refine ⟨⟨0, ⟨2⟩, [⟨.root, [⟨0, some
    ((Node.newDirectory "" (some .root)).mapChildren (·.insert "a" .root))⟩]⟩], []⟩, _, rfl, rfl,
    fun steps policy hDone => ?_, fun depth ids hDone => ?_⟩
  · exact policyWalk_ends_iff.1.mp ⟨steps, policy, hDone⟩ ⟨.root, .refl, .single rfl⟩
  · exact levels_end_iff.1.mp ⟨depth, ids, hDone⟩ ⟨.root, .refl, .single (by unfold Holds; decide)⟩

end Restored

end Tree

end TierTree
