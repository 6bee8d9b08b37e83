import Mathlib.Logic.Function.Basic
import TierTree.Proofs.Tree.Timeline
import TierTree.Tree.Apply

/-!
Views of a tree: the states of its nodes as they are now, and as they were at
an epoch. Each step of carrying out a plan is described by what it does to
these views. None of them touches the past.
-/

namespace TierTree

/-- The state of each node that is there. -/
abbrev View := NodeId → Option Node

theorem NodeId.lt_next {id next : NodeId} (h : id.next = .ok next) : id < next := by
  unfold NodeId.next at h
  cases hNext : successor id.raw with
  | error f => simp [hNext, Except.map] at h
  | ok raw =>
      simp only [hNext, Except.map, Except.ok.injEq] at h
      subst h
      have hValue := toNat_of_successor hNext
      exact UInt64.lt_iff_toNat_lt.mpr (by simp only; omega)

namespace Tree

/-- What is seen through a layer. -/
def view (t : Tree) (layer : Layer) : View := fun id => t.node? id layer

/-- What was there at an epoch. -/
def past (t : Tree) (epoch : Epoch) : View :=
  fun id => (t.timelines.get? id).bind (·.stateAt epoch)

theorem view_live (t : Tree) (id : NodeId) :
    t.view .live id = (t.timelines.get? id).bind (·.current) := by
  unfold view node?
  cases t.timelines.get? id <;> rfl

theorem view_frozen (t : Tree) (root : NodeId) (epoch : Epoch) (inherited : PolicyId) :
    t.view (.frozen root epoch inherited) = t.past epoch := by
  funext id
  unfold view node? past
  cases t.timelines.get? id <;> rfl

theorem view_layer (t : Tree) (s : Snapshot) : t.view s.layer = t.past s.epoch :=
  t.view_frozen ..

theorem view_congr {t u : Tree} (h : t.timelines = u.timelines) (layer : Layer) :
    t.view layer = u.view layer := by
  funext id
  simp only [view, node?, h]

theorem past_congr {t u : Tree} (h : t.timelines = u.timelines) (epoch : Epoch) :
    t.past epoch = u.past epoch := by
  funext id
  simp only [past, h]

/-- What the timelines of a tree always satisfy. -/
structure Kept (t : Tree) : Prop where
  dated : ∀ {id line}, t.timelines.get? id = some line → line.Dated t.epoch
  present : ∀ {id line}, t.timelines.get? id = some line → line.isGone = false
  numbered : ∀ {id line}, t.timelines.get? id = some line → id < t.nextId

theorem Kept.fresh {t : Tree} (h : t.Kept) : t.timelines.get? t.nextId = none := by
  cases hLine : t.timelines.get? t.nextId with
  | none => rfl
  | some line => exact absurd (h.numbered hLine) (KeyOrder.irrefl _)

theorem Kept.numbered_of_view {t : Tree} (h : t.Kept) {layer : Layer} {id : NodeId} {n : Node}
    (seen : t.view layer id = some n) : id < t.nextId := by
  unfold view node? at seen
  cases hLine : t.timelines.get? id with
  | none => simp [hLine] at seen
  | some line => exact h.numbered hLine

/-- The present is the past of the current epoch. -/
theorem Kept.past_now {t : Tree} (h : t.Kept) : t.past t.epoch = t.view .live := by
  funext id
  rw [view_live, past]
  cases hLine : t.timelines.get? id with
  | none => rfl
  | some line => exact Timeline.stateAt_of_within (h.dated hLine).within

section Update
variable (t : Tree) (id : NodeId) (change : Node → Node)

@[simp] theorem epoch_update : (t.update id change).epoch = t.epoch := by
  unfold update
  repeat' split <;> try rfl

@[simp] theorem nextId_update : (t.update id change).nextId = t.nextId := by
  unfold update
  repeat' split <;> try rfl

@[simp] theorem shelf_update : (t.update id change).shelf = t.shelf := by
  unfold update
  repeat' split <;> try rfl

/-- An update is either no change at all, or one timeline written. -/
theorem update_cases :
    (t.view .live id = none ∧ t.update id change = t) ∨
    ∃ line n, t.timelines.get? id = some line ∧ line.current = some n ∧
      t.update id change =
        { t with timelines := t.timelines.insert id (line.write t.epoch (some (change n))) } := by
  rw [view_live]
  cases hLine : t.timelines.get? id with
  | none => exact .inl ⟨rfl, by simp [update, hLine]⟩
  | some line =>
      cases hState : line.current with
      | none => exact .inl ⟨hState, by simp [update, hLine, hState]⟩
      | some n => exact .inr ⟨line, n, rfl, hState, by simp [update, hLine, hState]⟩

theorem view_update :
    (t.update id change).view .live =
      Function.update (t.view .live) id ((t.view .live id).map change) := by
  rcases t.update_cases id change with ⟨hNone, hSame⟩ | ⟨line, n, hLine, hState, hWritten⟩
  · rw [hSame, hNone, Option.map_none, ← hNone, Function.update_eq_self]
  · funext j
    have hBefore : t.view .live id = some n := by rw [view_live, hLine]; exact hState
    rw [hWritten, view_live, SortedMap.get?_insert, hBefore]
    by_cases hj : j = id
    · subst hj
      simp
    · simp [hj, view_live]

theorem past_update {epoch : Epoch} (h : epoch < t.epoch) :
    (t.update id change).past epoch = t.past epoch := by
  rcases t.update_cases id change with ⟨_, hSame⟩ | ⟨line, n, hLine, _, hWritten⟩
  · rw [hSame]
  · funext j
    simp only [past, hWritten, SortedMap.get?_insert]
    by_cases hj : j = id
    · subst hj
      simp [hLine, Timeline.stateAt_write_of_lt _ _ h]
    · simp [hj]

theorem update_kept {t : Tree} (h : t.Kept) (id : NodeId) (change : Node → Node) :
    (t.update id change).Kept := by
  rcases t.update_cases id change with ⟨_, hSame⟩ | ⟨line, n, hLine, _, hWritten⟩
  · rwa [hSame]
  · have hWrite := Timeline.current_write line t.epoch (some (change n))
    rw [hWritten]
    constructor <;> intro j line' hj <;> simp only [SortedMap.get?_insert] at hj <;> split at hj
    · cases hj
      exact Timeline.write_dated (h.dated hLine) _
    · exact h.dated hj
    · cases hj
      exact Timeline.not_isGone_of_current hWrite
    · exact h.present hj
    next same => exact h.numbered (same ▸ hLine)
    · exact h.numbered hj

end Update

section Add
variable {t added : Tree} {parent id : NodeId} {n : Node}

/-- The tree with a node entered under the next number, before its parent
knows of it. -/
def enter (t : Tree) (n : Node) (next : NodeId) : Tree :=
  { t with timelines := t.timelines.insert t.nextId (.start t.epoch n), nextId := next }

theorem addChild_cases (h : t.addChild parent n = .ok (id, added)) :
    id = t.nextId ∧ ∃ next, t.nextId.next = .ok next ∧
      added = (t.enter n next).update parent (·.mapChildren (·.insert n.name t.nextId)) := by
  unfold addChild at h
  cases hNext : t.nextId.next with
  | error f => simp [hNext, bind, Except.bind] at h
  | ok next =>
      simp only [hNext, bind, Except.bind, pure, Except.pure, Except.ok.injEq, Prod.mk.injEq] at h
      exact ⟨h.1.symm, next, rfl, h.2.symm⟩

theorem addChild_error {f : Fault} (h : t.addChild parent n = .error f) : f = .overflow := by
  unfold addChild NodeId.next at h
  cases hNext : successor t.nextId.raw with
  | error g =>
      simp only [hNext, Except.map, bind, Except.bind, Except.error.injEq] at h
      exact h ▸ fault_of_successor hNext
  | ok next => simp [hNext, Except.map, bind, Except.bind, pure, Except.pure] at h

theorem view_enter (t : Tree) (n : Node) (next : NodeId) :
    (t.enter n next).view .live = Function.update (t.view .live) t.nextId (some n) := by
  funext j
  rw [view_live]
  by_cases hj : j = t.nextId
  · simp [enter, hj, SortedMap.get?_insert]
  · simp [enter, hj, SortedMap.get?_insert, view_live]

theorem past_enter (kept : t.Kept) {epoch : Epoch} (h : epoch < t.epoch) (n : Node)
    (next : NodeId) : (t.enter n next).past epoch = t.past epoch := by
  funext j
  simp only [past, enter, SortedMap.get?_insert]
  split
  next same =>
    subst same
    simp [kept.fresh, Timeline.stateAt, Timeline.start, UInt64.not_le.mpr h]
  next => rfl

theorem enter_kept (kept : t.Kept) {next : NodeId} (hNext : t.nextId.next = .ok next) (n : Node) :
    (t.enter n next).Kept := by
  have hLater := NodeId.lt_next hNext
  constructor <;> intro j line hj <;> simp only [enter, SortedMap.get?_insert] at hj <;>
    split at hj
  · cases hj
    exact Timeline.start_dated _ _
  · exact kept.dated hj
  · cases hj
    exact Timeline.not_isGone_of_current (Timeline.current_start _ n)
  · exact kept.present hj
  next same => exact same ▸ hLater
  · exact KeyOrder.trans (kept.numbered hj) hLater

theorem addChild_kept (kept : t.Kept) (h : t.addChild parent n = .ok (id, added)) :
    added.Kept := by
  obtain ⟨_, next, hNext, rfl⟩ := addChild_cases h
  exact update_kept (enter_kept kept hNext n) _ _

theorem past_addChild (kept : t.Kept) (h : t.addChild parent n = .ok (id, added)) {epoch : Epoch}
    (earlier : epoch < t.epoch) : added.past epoch = t.past epoch := by
  obtain ⟨_, next, _, rfl⟩ := addChild_cases h
  exact (past_update (t.enter n next) parent _ earlier).trans (past_enter kept earlier n next)

theorem epoch_addChild (h : t.addChild parent n = .ok (id, added)) : added.epoch = t.epoch := by
  obtain ⟨_, next, _, rfl⟩ := addChild_cases h
  simp [enter]

theorem shelf_addChild (h : t.addChild parent n = .ok (id, added)) : added.shelf = t.shelf := by
  obtain ⟨_, next, _, rfl⟩ := addChild_cases h
  simp [enter]

theorem nextId_addChild (h : t.addChild parent n = .ok (id, added)) : t.nextId < added.nextId := by
  obtain ⟨_, next, hNext, rfl⟩ := addChild_cases h
  simpa [enter] using NodeId.lt_next hNext

/-- A new child is seen under its number, and its parent with one more entry. -/
theorem view_addChild (hParent : parent ≠ t.nextId) (h : t.addChild parent n = .ok (id, added)) :
    added.view .live =
      Function.update (Function.update (t.view .live) id (some n)) parent
        ((t.view .live parent).map (·.mapChildren (·.insert n.name id))) := by
  obtain ⟨rfl, next, _, rfl⟩ := addChild_cases h
  rw [view_update, view_enter, Function.update_of_ne hParent]

end Add

section Bury

/-- A burial drops a timeline, writes one, or is no change at all. What is
dropped was never seen. -/
theorem bury_cases (t : Tree) (id : NodeId) :
    (t.timelines.get? id = none ∧ t.bury id = t) ∨
    ∃ line, t.timelines.get? id = some line ∧
      (((line.write t.epoch none).isGone = true ∧
          t.bury id = { t with timelines := t.timelines.erase id }) ∨
        ((line.write t.epoch none).isGone = false ∧
          t.bury id =
            { t with timelines := t.timelines.insert id (line.write t.epoch none) })) := by
  cases hLine : t.timelines.get? id with
  | none => exact .inl ⟨rfl, by simp [bury, hLine]⟩
  | some line =>
      refine .inr ⟨line, rfl, ?_⟩
      cases hGone : (line.write t.epoch none).isGone with
      | true => exact .inl ⟨rfl, by simp [bury, hLine, hGone]⟩
      | false => exact .inr ⟨rfl, by simp [bury, hLine, hGone]⟩

variable (t : Tree) (id : NodeId)

@[simp] theorem epoch_bury : (t.bury id).epoch = t.epoch := by
  rcases t.bury_cases id with ⟨_, h⟩ | ⟨_, _, ⟨_, h⟩ | ⟨_, h⟩⟩ <;> rw [h]

@[simp] theorem nextId_bury : (t.bury id).nextId = t.nextId := by
  rcases t.bury_cases id with ⟨_, h⟩ | ⟨_, _, ⟨_, h⟩ | ⟨_, h⟩⟩ <;> rw [h]

@[simp] theorem shelf_bury : (t.bury id).shelf = t.shelf := by
  rcases t.bury_cases id with ⟨_, h⟩ | ⟨_, _, ⟨_, h⟩ | ⟨_, h⟩⟩ <;> rw [h]

theorem view_bury : (t.bury id).view .live = Function.update (t.view .live) id none := by
  funext j
  rcases t.bury_cases id with ⟨hLine, h⟩ | ⟨line, hLine, ⟨_, h⟩ | ⟨_, h⟩⟩ <;> rw [h] <;>
    by_cases hj : j = id
  · simp [hj, view_live, hLine]
  · simp [hj]
  · simp [hj, view_live, SortedMap.get?_erase]
  · simp [hj, view_live, SortedMap.get?_erase]
  · simp [hj, view_live, SortedMap.get?_insert]
  · simp [hj, view_live, SortedMap.get?_insert]

theorem past_bury {epoch : Epoch} (h : epoch < t.epoch) :
    (t.bury id).past epoch = t.past epoch := by
  funext j
  rcases t.bury_cases id with ⟨_, hSame⟩ | ⟨line, hLine, ⟨hGone, hErased⟩ | ⟨_, hWritten⟩⟩
  · rw [hSame]
  · by_cases hj : j = id
    · have hNone := Timeline.stateAt_of_isGone hGone epoch
      rw [Timeline.stateAt_write_of_lt _ _ h] at hNone
      simp [past, hErased, SortedMap.get?_erase, hj, hLine, hNone]
    · simp [past, hErased, SortedMap.get?_erase, hj]
  · by_cases hj : j = id
    · simp [past, hWritten, SortedMap.get?_insert, hj, hLine, Timeline.stateAt_write_of_lt _ _ h]
    · simp [past, hWritten, SortedMap.get?_insert, hj]

theorem bury_kept {t : Tree} (h : t.Kept) (id : NodeId) : (t.bury id).Kept := by
  rcases t.bury_cases id with ⟨_, hSame⟩ | ⟨line, hLine, ⟨_, hErased⟩ | ⟨hStays, hWritten⟩⟩
  · rwa [hSame]
  · rw [hErased]
    have hOld : ∀ {j line'}, (t.timelines.erase id).get? j = some line' →
        t.timelines.get? j = some line' := by
      intro j line' hj
      rw [SortedMap.get?_erase] at hj
      split at hj
      · cases hj
      · exact hj
    exact ⟨fun hj => h.dated (hOld hj), fun hj => h.present (hOld hj),
      fun hj => h.numbered (hOld hj)⟩
  · rw [hWritten]
    constructor <;> intro j line' hj <;> simp only [SortedMap.get?_insert] at hj <;> split at hj
    · cases hj
      exact Timeline.write_dated (h.dated hLine) _
    · exact h.dated hj
    · cases hj
      exact hStays
    · exact h.present hj
    next same => exact h.numbered (same ▸ hLine)
    · exact h.numbered hj

variable (ids : List NodeId)

@[simp] theorem epoch_foldl_bury : (ids.foldl bury t).epoch = t.epoch := by
  induction ids generalizing t with
  | nil => rfl
  | cons id rest ih => simp [ih]

@[simp] theorem nextId_foldl_bury : (ids.foldl bury t).nextId = t.nextId := by
  induction ids generalizing t with
  | nil => rfl
  | cons id rest ih => simp [ih]

@[simp] theorem shelf_foldl_bury : (ids.foldl bury t).shelf = t.shelf := by
  induction ids generalizing t with
  | nil => rfl
  | cons id rest ih => simp [ih]

/-- Burying nodes one after another takes all of them out of sight. -/
theorem view_foldl_bury (j : NodeId) :
    (ids.foldl bury t).view .live j = if j ∈ ids then none else t.view .live j := by
  induction ids generalizing t with
  | nil => simp
  | cons id rest ih =>
      rw [List.foldl_cons, ih, view_bury]
      by_cases hj : j = id <;> simp [hj]

theorem past_foldl_bury {epoch : Epoch} (h : epoch < t.epoch) :
    (ids.foldl bury t).past epoch = t.past epoch := by
  induction ids generalizing t with
  | nil => rfl
  | cons id rest ih => rw [List.foldl_cons, ih _ (by simpa using h), past_bury _ _ h]

theorem foldl_bury_kept {t : Tree} (h : t.Kept) : (ids.foldl bury t).Kept := by
  induction ids generalizing t with
  | nil => exact h
  | cons id rest ih => exact ih (bury_kept h id)

end Bury

section Prune
variable (t : Tree)

theorem get?_prune (id : NodeId) :
    t.prune.timelines.get? id = (t.timelines.get? id).bind fun line =>
      if (line.prune t.shelf.epochs).isGone then none else some (line.prune t.shelf.epochs) :=
  SortedMap.get?_filterMap ..

theorem view_prune : t.prune.view .live = t.view .live := by
  funext id
  rw [view_live, view_live, get?_prune]
  cases t.timelines.get? id with
  | none => rfl
  | some line =>
      cases hGone : (line.prune t.shelf.epochs).isGone with
      | true => simpa [hGone] using (Timeline.current_of_isGone hGone).symm
      | false => simp [hGone]

/-- Pruning keeps what the snapshots that are left can see. -/
theorem past_prune {epoch : Epoch} (h : epoch ∈ t.shelf.epochs) :
    t.prune.past epoch = t.past epoch := by
  funext id
  simp only [past, get?_prune]
  cases t.timelines.get? id with
  | none => rfl
  | some line =>
      have hSame := Timeline.stateAt_prune h line
      cases hGone : (line.prune t.shelf.epochs).isGone with
      | true =>
          rw [Timeline.stateAt_of_isGone hGone] at hSame
          simp [hGone, ← hSame]
      | false => simp [hGone, hSame]

theorem prune_kept {t : Tree} (h : t.Kept) : t.prune.Kept := by
  have hCase : ∀ {id line}, t.prune.timelines.get? id = some line →
      ∃ old, t.timelines.get? id = some old ∧ line = old.prune t.shelf.epochs ∧
        line.isGone = false := by
    intro id line hLine
    rw [get?_prune] at hLine
    obtain ⟨old, hOld, hKept⟩ := Option.bind_eq_some_iff.mp hLine
    split at hKept
    · cases hKept
    next hStays =>
      cases hKept
      exact ⟨old, hOld, rfl, by simpa using hStays⟩
  refine ⟨fun hLine => ?_, fun hLine => ?_, fun hLine => ?_⟩ <;>
    obtain ⟨old, hOld, rfl, hStays⟩ := hCase hLine
  · exact Timeline.prune_dated (h.dated hOld) _
  · exact hStays
  · exact h.numbered hOld

end Prune

end Tree

end TierTree
