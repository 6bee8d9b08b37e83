import TierTree.Proofs.Tree.Image
import TierTree.Proofs.Tree.Invariant

/-!
Images of any origin. A tree restored from an image holds the nodes of that
image, each with its versions, whatever the image says of them. Of snapshots
with the same directory and name only the last one is held.
-/

namespace TierTree

namespace SortedMap

theorem nodup_keys {κ α : Type} [LT κ] [KeyOrder κ] (m : SortedMap κ α) : m.keys.Nodup := by
  refine List.pairwise_map.mpr (m.ascending.imp fun {a b} hLt hSame => ?_)
  rw [hSame] at hLt
  exact KeyOrder.irrefl b.1 hLt

variable {κ α : Type} [LT κ] [DecidableLT κ] [DecidableEq κ] [KeyOrder κ]

/-- A binding that is put in leaves those of other keys as they are. -/
theorem perm_insert (m : SortedMap κ α) (k : κ) (a : α) :
    (m.insert k a).entries.Perm ((k, a) :: m.entries.filter (·.1 ≠ k)) := by
  refine (List.perm_ext_iff_of_nodup (m.insert k a).nodup_entries ?_).mpr fun e => ?_
  · refine List.nodup_cons.mpr ⟨fun hMem => ?_, m.nodup_entries.filter _⟩
    simpa using List.of_mem_filter hMem
  · obtain ⟨j, b⟩ := e
    rw [mem_entries_iff, get?_insert, List.mem_cons, List.mem_filter, mem_entries_iff]
    by_cases hSame : j = k
    · simp [hSame, eq_comm]
    · simp [hSame]

theorem perm_insert_of_fresh {m : SortedMap κ α} {k : κ} (a : α) (h : m.contains k = false) :
    (m.insert k a).entries.Perm ((k, a) :: m.entries) := by
  have hAll : m.entries.filter (·.1 ≠ k) = m.entries := by
    refine List.filter_eq_self.mpr fun e hMem => decide_eq_true ?_
    rintro rfl
    have hBound := mem_entries_iff.mp (show (e.1, e.2) ∈ m.entries from hMem)
    rw [contains, hBound] at h
    cases h
  simpa only [hAll] using m.perm_insert k a

end SortedMap

/-- A timeline holds the versions that it is made from, and these were in order. -/
theorem Timeline.of_ofVersions? {versions : List Version} {line : Timeline}
    (h : ofVersions? versions = some line) :
    line.versions = versions ∧ versions.Pairwise (fun v w => v.since < w.since) := by
  unfold ofVersions? at h
  split at h
  next => cases h
  next latest earlier hReverse =>
    split at h
    next hOrdered =>
      cases h
      rw [Timeline.versions, ← hReverse, List.reverse_reverse]
      exact ⟨rfl, hOrdered⟩
    next => cases h

/-- The directory and the name that tell a snapshot from others. -/
def Snapshot.key (s : Snapshot) : SnapshotKey := ⟨s.root, s.name⟩

/-- The snapshots without another one of the same directory and name behind them. -/
def lastOfEach : List Snapshot → List Snapshot
  | [] => []
  | s :: rest =>
      if s.key ∈ rest.map Snapshot.key then lastOfEach rest else s :: lastOfEach rest

theorem lastOfEach_sublist (snapshots : List Snapshot) :
    (lastOfEach snapshots).Sublist snapshots := by
  induction snapshots with
  | nil => exact .slnil
  | cons s rest ih =>
      rw [lastOfEach]
      split
      · exact ih.cons s
      · exact ih.cons_cons s

theorem nodup_lastOfEach (snapshots : List Snapshot) :
    ((lastOfEach snapshots).map Snapshot.key).Nodup := by
  induction snapshots with
  | nil => exact List.nodup_nil
  | cons s rest ih =>
      rw [lastOfEach]
      split
      next => exact ih
      next hLast =>
        rw [List.map_cons]
        exact List.nodup_cons.mpr
          ⟨fun hMem => hLast (((lastOfEach_sublist rest).map _).subset hMem), ih⟩

theorem lastOfEach_eq_self {snapshots : List Snapshot}
    (h : (snapshots.map Snapshot.key).Nodup) : lastOfEach snapshots = snapshots := by
  induction snapshots with
  | nil => rfl
  | cons s rest ih =>
      obtain ⟨hApart, hRest⟩ := List.nodup_cons.mp h
      rw [lastOfEach, if_neg hApart, ih hRest]

namespace Shelf

theorem perm_insert (shelf : Shelf) (s : Snapshot) :
    (shelf.insert s).toList.Perm (s :: shelf.toList.filter (·.key ≠ s.key)) := by
  have hMarks := (shelf.marks.perm_insert ⟨s.root, s.name⟩ ⟨s.epoch, s.inherited⟩).map
    fun e => snapshotOf e.1 e.2
  have hRest : shelf.toList.filter (·.key ≠ s.key) =
      (shelf.marks.entries.filter (·.1 ≠ ⟨s.root, s.name⟩)).map fun e => snapshotOf e.1 e.2 :=
    List.filter_map
  rw [hRest]
  exact hMarks

/-- Of snapshots that are put onto a shelf in order, the last one of each
directory and name comes onto it. -/
theorem perm_foldl_insert (shelf : Shelf) (snapshots : List Snapshot) :
    (snapshots.foldl insert shelf).toList.Perm
      (lastOfEach snapshots ++ shelf.toList.filter (·.key ∉ snapshots.map Snapshot.key)) := by
  induction snapshots generalizing shelf with
  | nil => simp [lastOfEach]
  | cons s rest ih =>
      have hInsert := (shelf.perm_insert s).filter (·.key ∉ rest.map Snapshot.key)
      have hOthers : (shelf.toList.filter (·.key ≠ s.key)).filter
            (·.key ∉ rest.map Snapshot.key) =
          shelf.toList.filter (·.key ∉ (s :: rest).map Snapshot.key) := by
        rw [List.filter_filter]
        exact List.filter_congr fun x _ => by simp [Bool.and_comm]
      refine (ih (shelf.insert s)).trans ((hInsert.append_left _).trans ?_)
      rw [lastOfEach]
      by_cases hReplaced : s.key ∈ rest.map Snapshot.key
      · rw [if_pos hReplaced, List.filter_cons_of_neg (by simpa using hReplaced), hOthers]
      · rw [if_neg hReplaced, List.filter_cons_of_pos (by simpa using hReplaced), hOthers]
        exact List.perm_middle

end Shelf

namespace Tree
variable {image : Image} {t : Tree}

theorem restoreNode_eq_ok_iff {next : NodeId} {timelines later : SortedMap NodeId Timeline}
    {r : NodeRecord} :
    restoreNode next timelines r = .ok later ↔
      r.id < next ∧ timelines.contains r.id = false ∧
        ∃ line, Timeline.ofVersions? r.versions = some line ∧
          later = timelines.insert r.id line := by
  unfold restoreNode
  by_cases hNext : r.id < next
  · rw [if_pos hNext]
    cases hLine : Timeline.ofVersions? r.versions with
    | none => simp
    | some line =>
        by_cases hHeld : timelines.contains r.id = true
        · simp [hHeld]
        · simp [hHeld, hNext, eq_comm]
  · simp [hNext]

/-- The nodes of an image come back, whatever their order. -/
theorem perm_restoreNodes {next : NodeId} {records : List NodeRecord}
    {timelines restored : SortedMap NodeId Timeline}
    (h : records.foldlM (restoreNode next) timelines = .ok restored) :
    (restored.entries.map fun e => (⟨e.1, e.2.versions⟩ : NodeRecord)).Perm
      (records ++ timelines.entries.map fun e => ⟨e.1, e.2.versions⟩) := by
  induction records generalizing timelines with
  | nil =>
      cases h
      exact .refl _
  | cons r rest ih =>
      rw [List.foldlM_cons] at h
      obtain ⟨later, hNode, hRest⟩ := bind_eq_ok_iff.mp h
      obtain ⟨-, hFresh, line, hLine, rfl⟩ := restoreNode_eq_ok_iff.mp hNode
      have hInsert := (SortedMap.perm_insert_of_fresh line hFresh).map
        fun e => (⟨e.1, e.2.versions⟩ : NodeRecord)
      rw [List.map_cons, (Timeline.of_ofVersions? hLine).1] at hInsert
      exact (ih hRest).trans ((hInsert.append_left rest).trans List.perm_middle)

theorem restoreSnapshots_eq_ok {timelines : SortedMap NodeId Timeline} {epoch : Epoch}
    {snapshots : List Snapshot} {shelf restored : Shelf}
    (h : snapshots.foldlM (restoreSnapshot timelines epoch) shelf = .ok restored) :
    restored = snapshots.foldl Shelf.insert shelf ∧
      ∀ s ∈ snapshots, timelines.contains s.root = true ∧ s.epoch < epoch := by
  induction snapshots generalizing shelf with
  | nil =>
      cases h
      exact ⟨rfl, by simp⟩
  | cons s rest ih =>
      rw [List.foldlM_cons] at h
      obtain ⟨later, hSnapshot, hRest⟩ := bind_eq_ok_iff.mp h
      unfold restoreSnapshot at hSnapshot
      split at hSnapshot
      next hMatches =>
        cases hSnapshot
        obtain ⟨hSame, hEach⟩ := ih hRest
        exact ⟨hSame, List.forall_mem_cons.mpr ⟨hMatches, hEach⟩⟩
      next => cases hSnapshot

/-- An accepted image, part by part. -/
theorem of_ofImage (h : ofImage image = .ok t) :
    image.nodes.foldlM (restoreNode image.nextId) .empty = .ok t.timelines ∧
      hasRoot t.timelines = true ∧ t.shelf = image.snapshots.foldl Shelf.insert .empty ∧
      (∀ s ∈ image.snapshots, t.timelines.contains s.root = true ∧ s.epoch < image.epoch) ∧
      t.epoch = image.epoch ∧ t.nextId = image.nextId := by
  obtain ⟨timelines, hNodes, hRest⟩ := bind_eq_ok_iff.mp h
  split at hRest
  next hRoot =>
    obtain ⟨shelf, hSnapshots, hSame⟩ := bind_eq_ok_iff.mp hRest
    obtain ⟨rfl, hEach⟩ := restoreSnapshots_eq_ok hSnapshots
    cases hSame
    exact ⟨hNodes, hRoot, rfl, hEach, rfl, rfl⟩
  next => cases hRest

theorem perm_nodes_of_ofImage (h : ofImage image = .ok t) :
    t.toImage.nodes.Perm image.nodes := by
  have hPerm := perm_restoreNodes (of_ofImage h).1
  rwa [show (SortedMap.empty : SortedMap NodeId Timeline).entries = [] from rfl, List.map_nil,
    List.append_nil] at hPerm

/-- The nodes of a restored tree are those of the image, with the same versions. -/
theorem mem_nodes_of_ofImage (h : ofImage image = .ok t) {r : NodeRecord} :
    r ∈ image.nodes ↔ ∃ line, t.timelines.get? r.id = some line ∧ line.versions = r.versions := by
  rw [← (perm_nodes_of_ofImage h).mem_iff]
  constructor
  · intro hMem
    obtain ⟨⟨id, line⟩, hEntry, rfl⟩ := List.mem_map.mp hMem
    exact ⟨line, SortedMap.mem_entries_iff.mp hEntry, rfl⟩
  · rintro ⟨line, hLine, hVersions⟩
    exact List.mem_map.mpr ⟨(r.id, line), SortedMap.mem_entries_iff.mpr hLine, by rw [hVersions]⟩

theorem perm_snapshots_of_ofImage (h : ofImage image = .ok t) :
    t.toImage.snapshots.Perm (lastOfEach image.snapshots) := by
  have hPerm := Shelf.empty.perm_foldl_insert image.snapshots
  rw [← (of_ofImage h).2.2.1, show Shelf.empty.toList = [] from rfl, List.filter_nil,
    List.append_nil] at hPerm
  exact hPerm

/-- What a restored tree holds of its image: the clock, the next number, every
node with all its versions, and of the snapshots the last one of each directory
and name. So nothing is lost just when no two snapshots share both. -/
theorem toImage_ofImage (h : ofImage image = .ok t) :
    t.toImage.epoch = image.epoch ∧ t.toImage.nextId = image.nextId ∧
      t.toImage.nodes.Perm image.nodes ∧ (image.nodes.map (·.id)).Nodup ∧
      t.toImage.snapshots.Perm (lastOfEach image.snapshots) ∧
      (t.toImage.snapshots.Perm image.snapshots ↔
        (image.snapshots.map Snapshot.key).Nodup) := by
  have hNodes := perm_nodes_of_ofImage h
  have hSnapshots := perm_snapshots_of_ofImage h
  have hIds : (t.toImage.nodes.map (·.id)).Nodup := by
    rw [toImage, List.map_map]
    exact t.timelines.nodup_keys
  refine ⟨(of_ofImage h).2.2.2.2.1, (of_ofImage h).2.2.2.2.2, hNodes,
    (hNodes.map _).nodup_iff.mp hIds, hSnapshots, fun hSame => ?_, fun hApart => ?_⟩
  · exact ((hSame.symm.trans hSnapshots).map _).nodup_iff.mpr (nodup_lastOfEach _)
  · rwa [lastOfEach_eq_self hApart] at hSnapshots

/-- An image in an order of its own comes back in that of the numbers and names,
with nothing lost. -/
theorem toImage_ofImage_reordered :
    ∃ image t, ofImage image = .ok t ∧ t.toImage ≠ image ∧
      image.nodes.map (·.id) = [⟨2⟩, .root] ∧ image.snapshots.map (·.name) = ["t", "s"] ∧
      t.toImage.nodes.Perm image.nodes ∧ t.toImage.snapshots.Perm image.snapshots := by
  obtain ⟨image, t, hImage, hOther, hIds, hNames, hApart⟩ : ∃ image t, ofImage image = .ok t ∧
      t.toImage ≠ image ∧ image.nodes.map (·.id) = [⟨2⟩, .root] ∧
      image.snapshots.map (·.name) = ["t", "s"] ∧
      (image.snapshots.map Snapshot.key).Nodup :=
    ⟨⟨2, ⟨3⟩, [⟨⟨2⟩, [⟨0, some (.newFile "f" .root 3)⟩, ⟨1, none⟩]⟩,
        ⟨.root, [⟨0, some (.newDirectory "" none)⟩]⟩],
      [⟨"t", .root, 1, .unspecified⟩, ⟨"s", .root, 0, .unspecified⟩]⟩, _, rfl, by decide, rfl, rfl,
      by decide⟩
  obtain ⟨-, -, hNodes, -, -, hSnapshots⟩ := toImage_ofImage hImage
  exact ⟨image, t, hImage, hOther, hIds, hNames, hNodes, hSnapshots.mpr hApart⟩

/-- Two snapshots of one directory under one name are accepted, and the earlier
one is lost. -/
theorem equal_names_merged :
    ∃ image t, ofImage image = .ok t ∧
      image.snapshots = [⟨"s", .root, 0, .unspecified⟩, ⟨"s", .root, 1, .unspecified⟩] ∧
      t.toImage.snapshots = [⟨"s", .root, 1, .unspecified⟩] ∧
      ¬ t.toImage.snapshots.Perm image.snapshots :=
  ⟨⟨2, ⟨2⟩, [⟨.root, [⟨0, some (.newDirectory "" none)⟩]⟩],
    [⟨"s", .root, 0, .unspecified⟩, ⟨"s", .root, 1, .unspecified⟩]⟩, _, rfl, rfl, rfl,
    fun hSame => absurd hSame.length_eq (by decide)⟩

end Tree

end TierTree
