import TierTree.Proofs.Tree.Admission
import TierTree.Proofs.Tree.Resolution

/-!
Reads in a snapshot. A read that is given a directory, the name of a snapshot and
the rest of a path puts them together to one path and reads that. It finds what the
snapshot of that name, among those listed for the directory, shows at the rest; only
the empty text, which is no directory, is taken for the root.
-/

namespace TierTree.Tree

variable {t : Tree} {dir name subpath path : String} {found : Resolved}

/-- What the snapshots listed for a directory show at the end of a text. One of them
has the name, the text spells names that lead down from its directory as it was when
the snapshot was taken, and they lead to this node with the state it had then. -/
def ShownAt (t : Tree) (dir name subpath : String) (found : Resolved) : Prop :=
  ∃ listed, t.snapshotsAt dir = .ok listed ∧ ∃ s ∈ listed, s.name = name ∧
    ∃ below id n, Path.Spells subpath below ∧ (t.view s.layer).Leads s.root below id ∧
      t.view s.layer id = some n ∧ found = .node id s.layer n

theorem snapshotsAt_eq_ok_iff (h : (t.view .live).Hierarchy) {listed : List Snapshot} :
    t.snapshotsAt dir = .ok listed ↔ ∃ names root, Path.split dir = .ok names ∧
      Path.snapshotDir ∉ names ∧ t.layout.DirectoryAt names root ∧
      listed = t.shelf.snapshotsOf root := by
  unfold snapshotsAt
  simp only [bind_eq_ok_iff, liveComponents_eq_ok_iff, liveDirectory_eq_ok_iff h]
  constructor
  · rintro ⟨names, ⟨hSplit, outside⟩, root, standing, hListed⟩
    cases hListed
    exact ⟨names, root, hSplit, outside, standing, rfl⟩
  · rintro ⟨names, root, hSplit, outside, standing, rfl⟩
    exact ⟨names, ⟨hSplit, outside⟩, root, standing, rfl⟩

/-- Names that enter a snapshot lead to what the snapshot of that name shows, and
there is just one place among them where a snapshot is entered. -/
theorem finds_snapshot_iff (hSound : t.Sound) {front below : List String} :
    t.Finds (front ++ Path.snapshotDir :: name :: below) found ↔
      Path.snapshotDir ∉ front ∧ ∃ s ∈ t.shelf.toList, s.name = name ∧
        (t.view .live).Leads .root front s.root ∧
        ∃ id n, (t.view s.layer).Leads s.root below id ∧ t.view s.layer id = some n ∧
          found = .node id s.layer n := by
  constructor
  · intro hFinds
    generalize hNames : front ++ Path.snapshotDir :: name :: below = names at hFinds
    cases hFinds with
    | live outside => exact absurd (hNames ▸ by simp) outside
    | snapshots outside =>
        obtain ⟨_, _, ⟨⟩⟩ :=
          (List.append_cons_inj_of_notMem outside List.not_mem_nil).mp hNames.symm
    | @frozen dir rest s id n outside held entrance way seen =>
        have hBehind : Path.snapshotDir ∉ s.name :: rest := by
          intro hMem
          have hValid : Path.isValidName Path.snapshotDir = true := by
            rcases List.mem_cons.mp hMem with hName | hMem
            · exact hName ▸ hSound.named s held
            · exact (hSound.frozen s held).valid_of_leads way _ hMem
          cases hValid
        obtain ⟨rfl, _, hRest⟩ := (List.append_cons_inj_of_notMem outside hBehind).mp hNames.symm
        obtain ⟨rfl, rfl⟩ := List.cons.inj hRest
        exact ⟨outside, s, held, rfl, entrance, id, n, way, seen, rfl⟩
  · rintro ⟨outside, s, held, rfl, entrance, id, n, way, seen, rfl⟩
    exact .frozen outside held entrance way seen

/-- The names on a way are spelled by the texts that have them as their parts. -/
theorem spells_iff_of_leads {v : View} (h : v.Hierarchy) {id dest : NodeId} {below : List String}
    (way : v.Leads id below dest) :
    Path.Spells subpath below ↔ Path.parts subpath.toList = below.map String.toList :=
  Path.spells_iff fun name hMem => (Path.isValidName_iff.mp (h.valid_of_leads way name hMem)).1

theorem mem_snapshotsOf_iff {root : NodeId} {s : Snapshot} :
    s ∈ t.shelf.snapshotsOf root ↔ s ∈ t.shelf.toList ∧ s.root = root := by
  simp [Shelf.snapshotsOf]

/-- Only names that may be used are read in a snapshot. -/
theorem names_of_shownAt (hSound : t.Sound) (hShown : t.ShownAt dir name subpath found) :
    Path.isValidName name = true ∧ ∃ front, ∃ below : List String, Path.split dir = .ok front ∧
      Path.parts subpath.toList = below.map String.toList ∧
      ∀ part ∈ below, Path.isValidName part = true := by
  obtain ⟨listed, hListed, s, hMem, rfl, below, id, n, hSpells, way, _⟩ := hShown
  obtain ⟨front, root, hSplit, _, _, rfl⟩ := (snapshotsAt_eq_ok_iff hSound.live).mp hListed
  have held := (mem_snapshotsOf_iff.mp hMem).1
  exact ⟨hSound.named s held, front, below, hSplit,
    (spells_iff_of_leads (hSound.frozen s held) way).mp hSpells,
    (hSound.frozen s held).valid_of_leads way⟩

/-- What the snapshots of a directory show is found behind the components of its path. -/
theorem shownAt_iff (hSound : t.Sound) {front below : List String}
    (hSplit : Path.split dir = .ok front)
    (hParts : Path.parts subpath.toList = below.map String.toList) :
    t.ShownAt dir name subpath found ↔
      t.Finds (front ++ Path.snapshotDir :: name :: below) found := by
  rw [finds_snapshot_iff hSound]
  constructor
  · rintro ⟨listed, hListed, s, hMem, rfl, below', id, n, hSpells, way, seen, rfl⟩
    obtain ⟨front', root, hSplit', outside, standing, rfl⟩ :=
      (snapshotsAt_eq_ok_iff hSound.live).mp hListed
    cases hSplit.symm.trans hSplit'
    obtain ⟨held, rfl⟩ := mem_snapshotsOf_iff.mp hMem
    rw [spells_iff_of_leads (hSound.frozen s held) way, hParts] at hSpells
    cases List.map_injective_iff.mpr (fun _ _ => String.toList_injective) hSpells
    exact ⟨outside, s, held, rfl, (directoryAt_iff.mp standing).1, id, n, way, seen, rfl⟩
  · rintro ⟨outside, s, held, rfl, entrance, id, n, way, seen, rfl⟩
    have standing := directoryAt_iff.mpr ⟨entrance, hSound.held s held⟩
    exact ⟨_, (snapshotsAt_eq_ok_iff hSound.live).mpr ⟨front, _, hSplit, outside, standing, rfl⟩,
      s, mem_snapshotsOf_iff.mpr ⟨held, rfl⟩, rfl, below, id, n,
      (spells_iff_of_leads (hSound.frozen s held) way).mpr hParts, way, seen, rfl⟩

/-- A read in a snapshot finds what the listed snapshots show. -/
theorem resolveInSnapshot_eq_ok_iff (hSound : t.Sound) (hDir : dir ≠ "") :
    t.resolveInSnapshot dir name subpath = .ok found ↔ t.ShownAt dir name subpath found := by
  have hText : ∀ parts : List (List Char), (parts.map String.ofList).map String.toList = parts := by
    simp [Function.comp_def]
  constructor
  · intro hRead
    have hName : Path.isValidName name = true := by
      by_contra hName
      rw [resolveInSnapshot, if_neg hName] at hRead
      cases hRead
    rw [resolveInSnapshot_eq hName] at hRead
    obtain ⟨names, hSplit⟩ := split_of_resolve hRead
    obtain ⟨front, hFront, _, rfl⟩ := (Path.split_inSnapshot_iff hDir hName).mp hSplit
    exact (shownAt_iff hSound hFront (hText _).symm).mpr (finds_of_resolve hSound hSplit hRead)
  · intro hShown
    obtain ⟨hName, front, below, hFront, hParts, hValid⟩ := names_of_shownAt hSound hShown
    have hSplit : Path.split (Path.inSnapshot dir name subpath) = .ok
        (front ++ Path.snapshotDir :: name :: (Path.parts subpath.toList).map String.ofList) := by
      refine (Path.split_inSnapshot_iff hDir hName).mpr ⟨front, hFront, fun part hPart => ?_, rfl⟩
      rw [hParts] at hPart
      obtain ⟨component, hMem, rfl⟩ := List.mem_map.mp hPart
      exact Path.componentFault?_of_isValidName _ (hValid component hMem)
    rw [resolveInSnapshot_eq hName]
    exact resolve_of_finds hSound hSplit ((shownAt_iff hSound hFront (hText _).symm).mp hShown)

/-- A read in a snapshot finds what the snapshots listed for its directory show, and
what a path through `.snapshot` finds. The empty text is no path of a directory, and
nothing is listed for it, but it is read like the root. -/
theorem resolveInSnapshot_agrees {edits : List Edit} (hRun : new.run edits = .ok t)
    (dir name subpath : String) :
    (dir ≠ "" → ∀ found, t.resolveInSnapshot dir name subpath = .ok found ↔
      t.ShownAt dir name subpath found) ∧
    (dir = "" → t.snapshotsAt dir = .error (.badPath .empty) ∧
      ∀ found, t.resolveInSnapshot dir name subpath = .ok found ↔
        t.ShownAt "/" name subpath found) ∧
    ∀ path front below, Path.split dir = .ok front → Path.Spells subpath below →
      Path.split path = .ok (front ++ Path.snapshotDir :: name :: below) →
      ∀ found, t.resolve path = .ok found ↔ t.resolveInSnapshot dir name subpath = .ok found := by
  have hSound := (run_sound new_sound hRun).1
  refine ⟨fun hDir found => resolveInSnapshot_eq_ok_iff hSound hDir, ?_, ?_⟩
  · rintro rfl
    refine ⟨rfl, fun found => ?_⟩
    have hRoot : t.resolveInSnapshot "" name subpath = t.resolveInSnapshot "/" name subpath := rfl
    rw [hRoot]
    exact resolveInSnapshot_eq_ok_iff hSound (by decide)
  · intro path front below hFront hSpells hSplit found
    have hDir : dir ≠ "" := by
      rintro rfl
      cases hFront
    have hParts : Path.parts subpath.toList = below.map String.toList :=
      (Path.spells_iff fun part hMem => Path.component_of_split hSplit (by simp [hMem])).mp hSpells
    rw [resolve_eq_ok_iff hSound hSplit, ← shownAt_iff hSound hFront hParts,
      resolveInSnapshot_eq_ok_iff hSound hDir]

/-- A file deleted since is read in the snapshot, whatever slashes stand around the rest
of the path. -/
theorem resolveInSnapshot_agrees_after_delete :
    ∃ t, new.run [.createFile "/d/sub/f" 2, .createSnapshot "/d" "s", .delete "/d/sub" true] =
        .ok t ∧
      t.ShownAt "/d/" "s" "//sub/f/"
        (.node ⟨4⟩ (.frozen ⟨2⟩ 0 .unspecified) (.newFile "f" ⟨3⟩ 2)) ∧
      t.resolve "/d/.snapshot/s/sub/f" =
        .ok (.node ⟨4⟩ (.frozen ⟨2⟩ 0 .unspecified) (.newFile "f" ⟨3⟩ 2)) := by
  obtain ⟨t, hRun, hRead⟩ : ∃ t,
      new.run [.createFile "/d/sub/f" 2, .createSnapshot "/d" "s", .delete "/d/sub" true] = .ok t ∧
      t.resolveInSnapshot "/d/" "s" "//sub/f/" =
        .ok (.node ⟨4⟩ (.frozen ⟨2⟩ 0 .unspecified) (.newFile "f" ⟨3⟩ 2)) :=
    ⟨_, rfl, by decide +kernel⟩
  obtain ⟨hShown, _, hSame⟩ := resolveInSnapshot_agrees hRun "/d/" "s" "//sub/f/"
  exact ⟨t, hRun, (hShown (by decide) _).mp hRead,
    (hSame "/d/.snapshot/s/sub/f" ["d"] ["sub", "f"] rfl (by decide +kernel) rfl _).mpr hRead⟩

/-- A read in a snapshot of the empty text finds what is shown of the root, though no
snapshots are listed for it. -/
theorem snapshot_read_without_directory :
    ∃ t found, new.run [.createSnapshot "/" "s"] = .ok t ∧
      t.resolveInSnapshot "" "s" "" = .ok found ∧ t.snapshotsAt "" = .error (.badPath .empty) ∧
      ¬ t.ShownAt "" "s" "" found := by
  obtain ⟨t, hRun, hRead⟩ : ∃ t, new.run [.createSnapshot "/" "s"] = .ok t ∧
      t.resolveInSnapshot "" "s" "" =
        .ok (.node .root (.frozen .root 0 .unspecified) (.newDirectory "" none)) :=
    ⟨_, rfl, by decide +kernel⟩
  refine ⟨t, _, hRun, hRead, rfl, ?_⟩
  rintro ⟨listed, hListed, _⟩
  cases hListed

end TierTree.Tree
