import TierTree.Proofs.Tree.Deletion
import TierTree.Proofs.Tree.Invariant

/-!
The walk over a subtree. It comes to an end with each node whose chain of parent
links leads to its start, and comes to none of them twice. So a deletion finds
every snapshot at or below the node to be deleted, and marks all nodes there.
-/

namespace TierTree

open Relation (ReflTransGen)

namespace View.Hierarchy

variable {v : View} {a x y top id : NodeId} {n : Node} {name other : String}

/-- The ways down through entries lead to where the chains of parent links come from. -/
theorem below_iff (h : v.Hierarchy) : v.Below top id ↔ ReflTransGen v.ParentOf top id := by
  constructor
  · rintro ⟨names, way⟩
    induction way with
    | here => exact .refl
    | into seen entry _ ih =>
        obtain ⟨_, cn, hChild, _, hParent⟩ := h.down seen entry
        exact .head ⟨cn, hChild, hParent⟩ ih
  · intro chain
    induction chain with
    | refl => exact .refl v top
    | tail _ link ih =>
        obtain ⟨n, seen, hParent⟩ := link
        obtain ⟨_, pn, hAbove, hEntry⟩ := h.up_of_parent seen hParent
        exact ih.child hAbove hEntry

/-- What is above an entry, and is not the entry itself, is above its directory. -/
theorem below_of_below_entry (h : v.Hierarchy) (seen : v a = some n)
    (entry : n.child? name = some y) (below : v.Below x y) : x = y ∨ v.Below x a := by
  obtain ⟨_, yn, hy, _, hParent⟩ := h.down seen entry
  rcases h.below_parent below hy with hSame | ⟨p, hp, hAbove⟩
  · exact .inl hSame
  · rw [hParent, Option.some.injEq] at hp
    exact .inr (hp ▸ hAbove)

/-- Below an entry of a directory there is none of its other entries. -/
theorem eq_of_below_entry (h : v.Hierarchy) (seen : v a = some n)
    (first : n.child? name = some x) (second : n.child? other = some y) (below : v.Below x y) :
    x = y := by
  rcases h.below_of_below_entry seen second below with hSame | ⟨names, way⟩
  · exact hSame
  · exact absurd way (h.not_leads_of_lt (h.lt_of_child seen first) names)

end View.Hierarchy

namespace Tree

variable {t : Tree} {id j parent target : NodeId} {n : Node} {name path : String}
  {recursive : Bool} {queue found : List NodeId}

section Once

/-- Nodes of which none is another one or below it. -/
def Apart (t : Tree) (ids : List NodeId) : Prop :=
  ids.Pairwise fun a b => ¬ (t.view .live).Below a b ∧ ¬ (t.view .live).Below b a

theorem nodup_entryIds (h : (t.view .live).Hierarchy) (id : NodeId) : (t.entryIds id).Nodup := by
  unfold entryIds
  split
  next n seen =>
    unfold Node.childIds
    split
    next children hChildren =>
      -- an entry is found under the name of the node, and so under one name only
      refine children.nodup_entries.map_on fun e he e' he' hSame => ?_
      have hFirst : n.child? e.1 = some e.2 :=
        Node.child?_eq_some_iff.mpr ⟨children, hChildren, SortedMap.mem_entries_iff.mp he⟩
      have hSecond : n.child? e'.1 = some e'.2 :=
        Node.child?_eq_some_iff.mpr ⟨children, hChildren, SortedMap.mem_entries_iff.mp he'⟩
      obtain ⟨_, cn, hChild, hName, _⟩ := h.down seen hFirst
      obtain ⟨_, cn', hChild', hName', _⟩ := h.down seen hSecond
      rw [hSame, hChild', Option.some.injEq] at hChild
      exact Prod.ext (hName.symm.trans ((congrArg Node.name hChild.symm).trans hName')) hSame
    next => exact List.nodup_nil
  next => exact List.nodup_nil

theorem apart_entryIds (h : (t.view .live).Hierarchy) (id : NodeId) : t.Apart (t.entryIds id) := by
  refine (nodup_entryIds h id).imp_of_mem fun {x y} hx hy hOther => ?_
  obtain ⟨n, seen, name, first⟩ := mem_entryIds_iff.mp hx
  obtain ⟨n', seen', name', second⟩ := mem_entryIds_iff.mp hy
  cases seen.symm.trans seen'
  exact ⟨fun below => hOther (h.eq_of_below_entry seen first second below),
    fun below => hOther (h.eq_of_below_entry seen second first below).symm⟩

/-- A queue stays apart when its first node makes room for its entries. -/
theorem Apart.next (h : (t.view .live).Hierarchy) (hApart : t.Apart (id :: queue)) :
    t.Apart (queue ++ t.entryIds id) := by
  obtain ⟨hFirst, hQueue⟩ := List.pairwise_cons.mp hApart
  refine List.pairwise_append.mpr ⟨hQueue, apart_entryIds h id, fun q hq x hx => ?_⟩
  obtain ⟨n, seen, name, entry⟩ := mem_entryIds_iff.mp hx
  have hDown : ¬ (t.view .live).Below x q := by
    rintro ⟨names, way⟩
    exact (hFirst q hq).1 ⟨name :: names, .into seen entry way⟩
  refine ⟨fun below => ?_, hDown⟩
  rcases h.below_of_below_entry seen entry below with rfl | hAbove
  · exact hDown (.refl _ q)
  · exact (hFirst q hq).2 hAbove

/-- A queue that is apart comes to no node twice. -/
theorem Drains.nodup (drains : t.Drains queue found) (h : (t.view .live).Hierarchy)
    (hApart : t.Apart queue) : found.Nodup := by
  induction drains with
  | done => exact List.nodup_nil
  | @next id queue found further ih =>
      refine List.nodup_cons.mpr ⟨fun hAgain => ?_, ih (hApart.next h)⟩
      -- what comes again is below another node of the queue, or below an entry of its own
      obtain ⟨i, hi, names, way⟩ := further.mem_iff.mp hAgain
      rcases List.mem_append.mp hi with hi | hEntry
      · exact ((List.pairwise_cons.mp hApart).1 i hi).2 ⟨names, way⟩
      · obtain ⟨n, seen, name, entry⟩ := mem_entryIds_iff.mp hEntry
        exact h.not_leads_of_lt (h.lt_of_child seen entry) names way

end Once

/-- A live node whose chain of parent links comes to another one, or which is that one. -/
def Descends (t : Tree) (top id : NodeId) : Prop :=
  (t.node? id .live).isSome = true ∧ ReflTransGen (t.view .live).ParentOf top id

theorem below_iff_descends (h : (t.view .live).Hierarchy) {top : NodeId}
    (seen : t.view .live top = some n) : (t.view .live).Below top id ↔ t.Descends top id := by
  rw [Descends, ← h.below_iff]
  refine ⟨fun below => ⟨?_, below⟩, And.right⟩
  obtain ⟨names, way⟩ := below
  exact Option.isSome_iff_exists.mpr (h.seen_of_leads way (by rw [seen]; rfl))

/-- The walk over the subtree of a live node comes once to each node that descends
from it. -/
theorem subtree_descends (h : (t.view .live).Hierarchy) (seen : t.view .live target = some n) :
    ∃ ids, t.subtree target = .ok ids ∧ t.Drains [target] ids ∧ ids.Nodup ∧
      ∀ id, id ∈ ids ↔ t.Descends target id := by
  obtain ⟨ids, hIds, hExact⟩ := subtree_spec h seen
  have hDrains : t.Drains [target] ids := drains_of_levels hIds
  refine ⟨ids, hIds, hDrains, hDrains.nodup h (List.pairwise_singleton _ _), fun id => ?_⟩
  exact (hExact id).trans (below_iff_descends h seen)

section Removal

theorem get?_update_of_ne (hOther : j ≠ id) (change : Node → Node) :
    (t.update id change).timelines.get? j = t.timelines.get? j := by
  rcases t.update_cases id change with ⟨_, hSame⟩ | ⟨line, n, _, _, hWritten⟩
  · rw [hSame]
  · rw [hWritten, SortedMap.get?_insert, if_neg hOther]

theorem get?_bury (t : Tree) (id j : NodeId) :
    (t.bury id).timelines.get? j =
      if j = id then ((t.timelines.get? id).map (·.write t.epoch none)).filter (!·.isGone)
      else t.timelines.get? j := by
  rcases t.bury_cases id with ⟨hLine, h⟩ | ⟨line, hLine, ⟨hGone, h⟩ | ⟨hStays, h⟩⟩ <;>
    rw [h, hLine]
  · split
    next same => rw [same, hLine]; rfl
    next => rfl
  · rw [SortedMap.get?_erase, Option.map_some, Option.filter_some, hGone]
    rfl
  · rw [SortedMap.get?_insert, Option.map_some, Option.filter_some, hStays]
    rfl

/-- Each of some nodes is buried once. -/
theorem get?_foldl_bury {ids : List NodeId} (hOnce : ids.Nodup) (t : Tree) (j : NodeId) :
    (ids.foldl bury t).timelines.get? j =
      if j ∈ ids then ((t.timelines.get? j).map (·.write t.epoch none)).filter (!·.isGone)
      else t.timelines.get? j := by
  induction ids generalizing t with
  | nil => simp
  | cons id rest ih =>
      obtain ⟨hFresh, hRest⟩ := List.nodup_cons.mp hOnce
      rw [List.foldl_cons, ih hRest, get?_bury, epoch_bury]
      by_cases hj : j = id
      · subst hj
        simp [hFresh]
      · simp [hj]

/-- The tree after a node was removed with all that descends from it. What descends
from it is marked as deleted, and is kept as long as there is a state to be seen. -/
structure Removes (later t : Tree) (target : NodeId) : Prop where
  marked : ∀ id, t.Descends target id → later.timelines.get? id =
    ((t.timelines.get? id).map (·.write t.epoch none)).filter (!·.isGone)
  live : ∀ id, (later.node? id .live).isSome = true ↔
    (t.node? id .live).isSome = true ∧ ¬ t.Descends target id

/-- A node that is cut off is removed with all that descends from it. -/
theorem removeSubtree_removes (hSound : t.Sound)
    (ok : (t.view .live).Severable parent name target) :
    ∃ later, t.removeSubtree parent name target = .ok later ∧ later.Removes t target := by
  obtain ⟨n, seen, _, hParent⟩ := ok.seen
  obtain ⟨doomed, hDoomed, _, hOnce, hExact⟩ := subtree_descends hSound.live seen
  have hBelow : ∀ id, (t.view .live).Below target id ↔ t.Descends target id :=
    fun _ => below_iff_descends hSound.live seen
  obtain ⟨later, hLater, _, hCut, _⟩ := removeSubtree_spec hSound ok
  refine ⟨later, hLater, ?_, fun id => ?_⟩
  · intro id below
    have hOther : id ≠ parent := by
      rintro rfl
      obtain ⟨names, way⟩ := (hBelow id).mpr below
      exact hSound.live.not_leads_of_lt (hSound.live.up_of_parent seen hParent).1 names way
    cases (removeSubtree_of_subtree hDoomed).symm.trans hLater
    rw [get?_foldl_bury hOnce, if_pos ((hExact id).mpr below), get?_update_of_ne hOther,
      epoch_update]
  · change (later.view .live id).isSome = true ↔ (t.view .live id).isSome = true ∧ _
    rw [hCut, Option.isSome_iff_exists, Option.isSome_iff_exists, ← hBelow]
    constructor
    · rintro ⟨m, hSeen⟩
      obtain ⟨outside, k, hBefore, _⟩ := View.seen_of_cut hSeen
      exact ⟨⟨k, hBefore⟩, outside⟩
    · rintro ⟨⟨k, hBefore⟩, outside⟩
      obtain ⟨m, hSeen, _⟩ := View.cut_of_seen parent name hBefore outside
      exact ⟨m, hSeen⟩

/-- How the deletion of a node ends that was found by its path and may be deleted with
its entries. Snapshots of any directory that descends from it stop it, and nothing
else does. -/
structure DeletesAll (t : Tree) (path : String) (recursive : Bool) (target : NodeId) : Prop where
  held : (∃ id, t.Descends target id ∧ t.shelf.hasSnapshots id = true) →
    t.apply (.delete path recursive) = .error (.refused (.hasSnapshots path))
  free : (∀ id, t.Descends target id → t.shelf.hasSnapshots id = false) →
    ∃ later, t.apply (.delete path recursive) = .ok (target, later) ∧ later.Removes t target

theorem deletesAll_of_deletedNode (hSound : t.Sound)
    (hFound : t.deletedNode path recursive = .ok (parent, name, target)) :
    t.DeletesAll path recursive target := by
  have ok := (deletedNode_spec hSound.live hFound).1
  obtain ⟨n, seen, _⟩ := ok.seen
  have hHeld : t.HeldBelow target ↔
      ∃ id, t.Descends target id ∧ t.shelf.hasSnapshots id = true :=
    exists_congr fun _ => and_congr_left fun _ => below_iff_descends hSound.live seen
  have hPlan := plan_delete_of_deletedNode hSound.live hFound
  rw [hHeld] at hPlan
  constructor
  case held =>
    intro hSome
    rcases hPlan with ⟨_, hRefused⟩ | ⟨hNone, _⟩
    · rw [apply, hRefused, error_bind]
    · exact absurd hSome hNone
  case free =>
    intro hFree
    rcases hPlan with ⟨⟨id, below, hSnapshot⟩, _⟩ | ⟨_, hPlanned⟩
    · rw [hFree id below] at hSnapshot
      cases hSnapshot
    · obtain ⟨later, hLater, hRemoves⟩ := removeSubtree_removes hSound ok
      refine ⟨later, apply_eq_ok_iff.mpr ⟨_, hPlanned, ?_⟩, hRemoves⟩
      simp only [execute, hLater]
      rfl

end Removal

/-- In a tree that edits lead to, the walk over the subtree of a live node comes to an
end, in the order of a queue, and comes once to each node that descends from it and to
no other one. So a deletion of this node sees every snapshot at or below it, and marks
just these nodes as deleted. -/
theorem subtree_exact {edits : List Edit} (hRun : new.run edits = .ok t)
    (seen : t.node? target .live = some n) :
    (∃ ids, t.subtree target = .ok ids ∧ t.Drains [target] ids ∧ ids.Nodup ∧
      ∀ id, id ∈ ids ↔ t.Descends target id) ∧
    ∀ path recursive parent name, t.deletedNode path recursive = .ok (parent, name, target) →
      t.DeletesAll path recursive target := by
  have hSound := (run_sound new_sound hRun).1
  constructor
  · exact subtree_descends hSound.live seen
  · exact fun _ _ _ _ hFound => deletesAll_of_deletedNode hSound hFound

/-- Two directories in another one, with a file in the first and a snapshot of the
second. The walk comes to the directories before the file. The outer directory is held
by the snapshot, and the first inner one can be deleted with its file. -/
theorem subtree_exact_around_snapshot :
    ∃ t n m, new.run [.mkdirs "/a/b", .createFile "/a/b/f" 3, .mkdirs "/a/c",
        .createSnapshot "/a/c" "s"] = .ok t ∧
      t.node? ⟨2⟩ .live = some n ∧ t.node? ⟨3⟩ .live = some m ∧
      t.subtree ⟨2⟩ = .ok [⟨2⟩, ⟨3⟩, ⟨5⟩, ⟨4⟩] ∧
      (∀ id, id ∈ [⟨2⟩, ⟨3⟩, ⟨5⟩, ⟨4⟩] ↔ t.Descends ⟨2⟩ id) ∧
      t.deletedNode "/a" true = .ok (⟨1⟩, "a", ⟨2⟩) ∧
      t.apply (.delete "/a" true) = .error (.refused (.hasSnapshots "/a")) ∧
      t.deletedNode "/a/b" true = .ok (⟨2⟩, "b", ⟨3⟩) ∧
      ∃ later, t.apply (.delete "/a/b" true) = .ok (⟨3⟩, later) ∧ later.Removes t ⟨3⟩ := by
  obtain ⟨t, n, m, hRun, hOuter, hInner, hWalk, hWalk', hFound, hFound', hHeld, hFree⟩ :
      ∃ t n m, new.run [.mkdirs "/a/b", .createFile "/a/b/f" 3, .mkdirs "/a/c",
        .createSnapshot "/a/c" "s"] = .ok t ∧
      t.node? ⟨2⟩ .live = some n ∧ t.node? ⟨3⟩ .live = some m ∧
      t.subtree ⟨2⟩ = .ok [⟨2⟩, ⟨3⟩, ⟨5⟩, ⟨4⟩] ∧ t.subtree ⟨3⟩ = .ok [⟨3⟩, ⟨4⟩] ∧
      t.deletedNode "/a" true = .ok (⟨1⟩, "a", ⟨2⟩) ∧
      t.deletedNode "/a/b" true = .ok (⟨2⟩, "b", ⟨3⟩) ∧
      t.shelf.hasSnapshots ⟨5⟩ = true ∧
      ∀ id ∈ [⟨3⟩, ⟨4⟩], t.shelf.hasSnapshots id = false :=
    ⟨_, _, _, rfl, rfl, rfl, rfl, rfl, rfl, rfl, rfl, by decide⟩
  obtain ⟨⟨ids, hIds, _, _, hExact⟩, hDelete⟩ := subtree_exact hRun hOuter
  obtain ⟨⟨ids', hIds', _, _, hExact'⟩, hDelete'⟩ := subtree_exact hRun hInner
  cases hWalk.symm.trans hIds
  cases hWalk'.symm.trans hIds'
  have hRefused := (hDelete _ _ _ _ hFound).held ⟨⟨5⟩, (hExact _).mp (by decide), hHeld⟩
  have hRemoved := (hDelete' _ _ _ _ hFound').free fun id below => hFree id ((hExact' id).mpr below)
  exact ⟨t, n, m, hRun, hOuter, hInner, hWalk, hExact, hFound, hRefused, hFound', hRemoved⟩

end Tree

end TierTree
