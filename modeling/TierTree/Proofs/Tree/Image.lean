import TierTree.Proofs.Tree.Codec
import TierTree.Proofs.Tree.Run

/-!
Trees that are restored. A sound tree is the tree of its own image: every
version of every node, every snapshot, and both counters come back.
-/

namespace TierTree

/-- A timeline is made again from its versions. -/
theorem Timeline.ofVersions?_versions {line : Timeline} {epoch : Epoch}
    (h : line.Dated epoch) : ofVersions? line.versions = some line := by
  have hReverse : line.versions.reverse = line.latest :: line.earlier := List.reverse_reverse _
  have hOrdered : line.versions.Pairwise (fun v w => v.since < w.since) := by
    rw [versions, List.pairwise_reverse]
    exact h.ordered
  rw [ofVersions?, hReverse]
  simp only [if_pos hOrdered]

namespace Tree

variable {next : NodeId} {epoch : Epoch}

theorem restoreNode_ok {line : Timeline} {id : NodeId} {timelines : SortedMap NodeId Timeline}
    (hNext : id < next) (hDated : line.Dated epoch) (hFresh : ∀ e ∈ timelines.entries, e.1 < id) :
    restoreNode next timelines ⟨id, line.versions⟩ = .ok (timelines.insert id line) := by
  have hNew : timelines.contains id = false := by
    rw [SortedMap.contains, Option.isSome_eq_false_iff, Option.isNone_iff_eq_none]
    refine Option.eq_none_iff_forall_ne_some.mpr fun line' hBound => ?_
    exact KeyOrder.irrefl id (hFresh _ (SortedMap.mem_entries_iff.mpr hBound))
  rw [restoreNode, if_pos hNext, Timeline.ofVersions?_versions hDated]
  simp [hNew]

/-- The timelines of an image come back in their order. -/
theorem restoreNodes_ok {bindings : List (NodeId × Timeline)}
    {timelines : SortedMap NodeId Timeline}
    (hOrdered : (timelines.entries ++ bindings).Pairwise (fun d e => d.1 < e.1))
    (hEach : ∀ e ∈ bindings, e.1 < next ∧ e.2.Dated epoch) :
    ∃ restored, (bindings.map fun e => (⟨e.1, e.2.versions⟩ : NodeRecord)).foldlM
        (restoreNode next) timelines = .ok restored ∧
      restored.entries = timelines.entries ++ bindings := by
  induction bindings generalizing timelines with
  | nil => exact ⟨timelines, rfl, by simp⟩
  | cons e rest ih =>
      obtain ⟨hNext, hDated⟩ := hEach e (by simp)
      have hBelow : ∀ d ∈ timelines.entries, d.1 < e.1 := fun d hd =>
        (List.pairwise_append.mp hOrdered).2.2 d hd e (by simp)
      have hLast := SortedMap.entries_insert_last (a := e.2) hBelow
      obtain ⟨restored, hDone, hEntries⟩ := @ih (timelines.insert e.1 e.2)
        (by simpa [hLast] using hOrdered) fun d hd => hEach d (List.mem_cons_of_mem _ hd)
      refine ⟨restored, ?_, by simp [hEntries, hLast]⟩
      rw [List.map_cons, List.foldlM_cons, restoreNode_ok hNext hDated hBelow]
      exact hDone

/-- The snapshots of an image come back in their order. -/
theorem restoreSnapshots_ok {timelines : SortedMap NodeId Timeline}
    {marks : List (SnapshotKey × Mark)} {shelf : Shelf}
    (hOrdered : (shelf.marks.entries ++ marks).Pairwise (fun d e => d.1 < e.1))
    (hEach : ∀ e ∈ marks, timelines.contains e.1.root = true ∧ e.2.epoch < epoch) :
    ∃ restored, (marks.map fun e => Shelf.snapshotOf e.1 e.2).foldlM
        (restoreSnapshot timelines epoch) shelf = .ok restored ∧
      restored.marks.entries = shelf.marks.entries ++ marks := by
  induction marks generalizing shelf with
  | nil => exact ⟨shelf, rfl, by simp⟩
  | cons e rest ih =>
      have hBelow : ∀ d ∈ shelf.marks.entries, d.1 < e.1 := fun d hd =>
        (List.pairwise_append.mp hOrdered).2.2 d hd e (by simp)
      have hLast : (shelf.insert (Shelf.snapshotOf e.1 e.2)).marks.entries =
          shelf.marks.entries ++ [e] := SortedMap.entries_insert_last (a := e.2) hBelow
      obtain ⟨restored, hDone, hEntries⟩ := @ih (shelf.insert (Shelf.snapshotOf e.1 e.2))
        (by simpa [hLast] using hOrdered) fun d hd => hEach d (List.mem_cons_of_mem _ hd)
      refine ⟨restored, ?_, by simp [hEntries, hLast]⟩
      have hOk : restoreSnapshot timelines epoch shelf (Shelf.snapshotOf e.1 e.2) =
          .ok (shelf.insert (Shelf.snapshotOf e.1 e.2)) := if_pos (hEach e (by simp))
      rw [List.map_cons, List.foldlM_cons, hOk]
      exact hDone

/-- A sound tree is restored from its image. -/
theorem ofImage_toImage {t : Tree} (hSound : t.Sound) : ofImage t.toImage = .ok t := by
  obtain ⟨timelines, hNodes, hTimelines⟩ :=
    @restoreNodes_ok t.nextId t.epoch t.timelines.entries .empty t.timelines.ascending
      fun e hMem =>
        have hBound := SortedMap.mem_entries_iff.mp hMem
        ⟨hSound.kept.numbered hBound, hSound.kept.dated hBound⟩
  obtain rfl : timelines = t.timelines := SortedMap.eq_of_entries hTimelines
  obtain ⟨shelf, hSnapshots, hMarks⟩ :=
    @restoreSnapshots_ok t.epoch t.timelines t.shelf.marks.entries .empty t.shelf.marks.ascending
      fun e hMem => by
        have held : Shelf.snapshotOf e.1 e.2 ∈ t.shelf.toList := List.mem_map_of_mem hMem
        refine ⟨?_, hSound.earlier _ held⟩
        obtain ⟨n, hSeen, _⟩ := hSound.held _ held
        rw [view_live] at hSeen
        obtain ⟨line, hLine, _⟩ := Option.bind_eq_some_iff.mp hSeen
        exact Option.isSome_iff_exists.mpr ⟨line, hLine⟩
  have hShelf : shelf = t.shelf := congrArg Shelf.mk (SortedMap.eq_of_entries hMarks)
  have hRoot : hasRoot t.timelines = true := by
    obtain ⟨n, hSeen, hDirectory, _⟩ := hSound.live.root
    rw [hasRoot, ← view_live, hSeen]
    exact hDirectory
  refine bind_eq_ok_iff.mpr ⟨t.timelines, hNodes, ?_⟩
  rw [if_pos hRoot]
  exact bind_eq_ok_iff.mpr ⟨shelf, hSnapshots, congrArg _ (by rw [hShelf]; rfl)⟩

/-- A tree comes back from the text of its image. Whatever edits led to it, the
text is read as the image that was written, and the tree restored from that is
the tree itself: every version of every node, deletions among them, every
snapshot, the clock and the next number. -/
theorem image_round_trip {edits : List Edit} {t : Tree} (hRun : new.run edits = .ok t) :
    Image.parse? t.toImage.render = some t.toImage ∧ ofImage t.toImage = .ok t :=
  ⟨Image.parse?_render t.toImage, ofImage_toImage (run_sound new_sound hRun).1⟩

/-- A file with a quotation mark, a line break and a control character in its
name comes back with its deletion, which only a snapshot remembers. -/
theorem image_round_trip_deleted :
    ∃ t line, new.run [.createFile "/a/\"é\n\u0001" 3, .createSnapshot "/a" "s",
        .delete "/a/\"é\n\u0001" false] = .ok t ∧
      t.timelines.get? ⟨3⟩ = some line ∧ line.latest = ⟨1, none⟩ ∧ line.earlier.length = 1 ∧
      Image.parse? t.toImage.render = some t.toImage ∧ ofImage t.toImage = .ok t := by
  obtain ⟨t, hRun, line, hLine, hLatest, hEarlier⟩ : ∃ t,
      new.run [.createFile "/a/\"é\n\u0001" 3, .createSnapshot "/a" "s",
        .delete "/a/\"é\n\u0001" false] = .ok t ∧
      ∃ line, t.timelines.get? ⟨3⟩ = some line ∧ line.latest = ⟨1, none⟩ ∧
        line.earlier.length = 1 := ⟨_, rfl, _, rfl, rfl, rfl⟩
  exact ⟨t, line, hRun, hLine, hLatest, hEarlier, image_round_trip hRun⟩

end Tree

end TierTree
