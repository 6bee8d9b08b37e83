import Mathlib.Data.List.Nodup
import TierTree.Proofs.Tree.Run

/-!
What holds of every tree that edits lead to: the live tree is a tree with one
way to each node, each snapshot sees a tree of its own, and the versions of a
node are in the order in which they were written.
-/

namespace TierTree

namespace Timeline

theorem mem_versions_iff {line : Timeline} {v : Version} :
    v ∈ line.versions ↔ v ∈ line.latest :: line.earlier := List.mem_reverse

/-- The versions of a node: at least one, each later than the one before, the
newest of them not after `epoch`, and at least one of them with a state. -/
structure WellKept (line : Timeline) (epoch : Epoch) : Prop where
  ascending : line.versions.Pairwise (fun v w => v.since < w.since)
  newest : ∃ v, line.versions.getLast? = some v ∧ v.since ≤ epoch
  holds : ∃ v ∈ line.versions, v.state.isSome = true

theorem Dated.wellKept {line : Timeline} {epoch : Epoch} (h : line.Dated epoch)
    (hPresent : line.isGone = false) : line.WellKept epoch := by
  refine ⟨List.pairwise_reverse.mpr h.ordered, ⟨line.latest, by simp [versions], h.within⟩, ?_⟩
  by_contra hNone
  have hGone : line.isGone = true := isGone_iff.mpr fun v hv => by
    by_contra hState
    exact hNone ⟨v, mem_versions_iff.mpr hv, Option.isSome_iff_ne_none.mpr hState⟩
  rw [hPresent] at hGone
  cases hGone

end Timeline

/-- The bindings of a map are told apart by their keys. -/
theorem SortedMap.nodup_entries {κ α : Type} [LT κ] [KeyOrder κ] (m : SortedMap κ α) :
    m.entries.Nodup :=
  m.ascending.imp fun {a b} hLt => by
    rintro rfl
    exact KeyOrder.irrefl a.1 hLt

theorem Shelf.nodup_toList (shelf : Shelf) : shelf.toList.Nodup := by
  refine shelf.marks.nodup_entries.map_on fun a ha b hb hSame => ?_
  obtain ⟨⟨root, name⟩, ⟨epoch, inherited⟩⟩ := a
  obtain ⟨⟨root', name'⟩, ⟨epoch', inherited'⟩⟩ := b
  simp only [snapshotOf, Snapshot.mk.injEq] at hSame
  obtain ⟨rfl, rfl, rfl, rfl⟩ := hSame
  rfl

namespace Tree

/-- The invariant of a tree and its history. -/
structure Invariant (t : Tree) : Prop where
  /-- The live root is a directory without parent, every other live node is
  entered in its live parent under its name, and every entry is a live node
  with that name and parent. -/
  live : (t.view .live).Hierarchy
  reached : ∀ {id n}, t.view .live id = some n → ∃! names, (t.view .live).Leads .root names id
  acyclic : ∀ id, ¬ Relation.TransGen (t.view .live).ParentOf id id
  numbered : ∀ id ∈ t.timelines.keys, id < t.nextId
  versions : ∀ {id line}, t.timelines.get? id = some line → line.WellKept t.epoch
  epochs : (t.shelf.toList.map (·.epoch)).Nodup
  past : ∀ s ∈ t.shelf.toList, s.epoch < t.epoch
  held : ∀ s ∈ t.shelf.toList, ∃ n, t.view .live s.root = some n ∧ n.isDirectory = true
  /-- What is seen at the epoch of a snapshot satisfies what `live` says of the
  live tree, and the directory of the snapshot is in it. -/
  frozen : ∀ s ∈ t.shelf.toList, (t.view s.layer).Hierarchy ∧
    ∃ n, t.view s.layer s.root = some n ∧ n.isDirectory = true

theorem Sound.invariant {t : Tree} (h : t.Sound) : t.Invariant where
  live := h.live
  reached seen := by
    obtain ⟨names, way⟩ := h.live.exists_leads seen
    exact ⟨names, way, fun _ other => h.live.leads_unique h.live.root_isSome other way⟩
  acyclic := h.live.acyclic
  numbered id hKey := by
    obtain ⟨line, hLine⟩ := Option.isSome_iff_exists.mp (SortedMap.mem_keys_iff.mp hKey)
    exact h.kept.numbered hLine
  versions hLine := (h.kept.dated hLine).wellKept (h.kept.present hLine)
  epochs := t.shelf.nodup_toList.map_on h.apart
  past := h.earlier
  held := h.held
  frozen s hs := ⟨h.frozen s hs, h.shown s hs⟩

/-- Any run of edits from the new tree ends in a tree with the invariant,
unless a counter is used up on the way. No run goes on for ever. -/
theorem run_invariant (edits : List Edit) :
    (∃ t, new.run edits = .ok t ∧ t.Invariant) ∨ new.run edits = .error .overflow := by
  rcases run_spec new_sound edits with ⟨t, hRun, hSound, _⟩ | hFault
  · exact .inl ⟨t, hRun, hSound.invariant⟩
  · exact .inr hFault

end Tree

end TierTree
