import TierTree.Proofs.Text.Order
import TierTree.Proofs.Tree.Frozen
import TierTree.Proofs.Tree.Resolution

/-!
Listings. What a directory lists is what its path leads on to: every entry is
there, in the order of the names, with the status that its own path has. This
holds of live directories, of what snapshots show, and of the lists of
snapshots themselves.
-/

namespace TierTree

/-- Whether entries can be listed: those of a directory or of a list of
snapshots. -/
def Resolved.isDirectory : Resolved → Bool
  | .node _ _ n => n.isDirectory
  | .snapshotDir _ => true

/-- An entry of a directory or of a list of snapshots. -/
structure Entry where
  name : String
  id : NodeId
  layer : Layer

namespace Tree

/-- The entries of what a path leads to, whether their states are there or
not. -/
def entriesOf (t : Tree) : Resolved → List Entry
  | .node _ layer n =>
      match n.children? with
      | none => []
      | some children => children.entries.map fun e => ⟨e.1, e.2, layer⟩
  | .snapshotDir dir => (t.shelf.snapshotsOf dir).map fun s => ⟨s.name, s.root, s.layer⟩

variable {t : Tree} {path : String} {names : List String} {found : Resolved} {id : NodeId}
  {n : Node} {layer : Layer}

theorem listed_eq (h : found.isDirectory = true) :
    t.listed found = t.visible ((t.entriesOf found).map fun e => (e.id, e.layer)) := by
  cases found with
  | snapshotDir dir => simp [listed, entriesOf, Function.comp_def]
  | node id layer n =>
      obtain ⟨children, hChildren⟩ := Option.isSome_iff_exists.mp h
      simp [listed, entriesOf, hChildren, SortedMap.values, Function.comp_def]

/-- Entries stand in the order of their names. -/
theorem entriesOf_ascending (t : Tree) (found : Resolved) :
    (t.entriesOf found).Pairwise fun a b => a.name < b.name := by
  cases found with
  | node id layer n =>
      cases hChildren : n.children? with
      | none => simp [entriesOf, hChildren]
      | some children =>
          simp only [entriesOf, hChildren]
          exact List.pairwise_map.mpr children.ascending
  | snapshotDir dir =>
      have hShelf : t.shelf.toList.Pairwise fun a b => a.root < b.root ∨
          a.root = b.root ∧ a.name < b.name :=
        List.pairwise_map.mpr (t.shelf.marks.ascending.imp fun hLt => hLt)
      refine List.pairwise_map.mpr ((hShelf.filter _).imp_of_mem fun {a b} ha hb hLt => ?_)
      have hRoot : a.root = b.root := by
        simp only [Shelf.snapshotsOf, List.mem_filter, decide_eq_true_eq] at ha hb
        exact ha.2.trans hb.2.symm
      rcases hLt with hLt | ⟨_, hName⟩
      · exact absurd (hRoot ▸ hLt) (KeyOrder.irrefl _)
      · exact hName

section Statuses

/-- What a path leads to has a policy in force, and so a status. -/
theorem Finds.status (hSound : t.Sound) (h : t.Finds names found) :
    ∃ status, t.statusOf found = .ok status := by
  have hPolicy : ∀ {policy : PolicyId} {layer : Layer} {id : NodeId} (n : Node),
      t.effectivePolicy id layer = .ok policy → ∃ status, t.statusOfNode id layer n = .ok status :=
    fun _ hOk => by simp [statusOfNode, hOk, bind, Except.bind, pure, Except.pure]
  cases h with
  | live outside way seen =>
      obtain ⟨policy, hOk, _⟩ := effectivePolicy_live hSound.live seen
      exact hPolicy _ hOk
  | @frozen dir below s id n outside held entrance way seen =>
      obtain ⟨policy, hOk, _⟩ := effectivePolicy_spec (hSound.frozen s held) ⟨below, way⟩ seen
      exact hPolicy _ hOk
  | snapshots outside way seen directory =>
      obtain ⟨policy, hOk, _⟩ := effectivePolicy_live hSound.live seen
      simp [statusOf, hOk, bind, Except.bind, pure, Except.pure]

theorem name_of_status {status : FileStatus} (h : t.statusOfNode id layer n = .ok status) :
    status.name = t.displayName id layer n := by
  obtain ⟨policy, _, hStatus⟩ := bind_eq_ok_iff.mp h
  cases hStatus
  rfl

theorem childCount_of_status {status : FileStatus} (hDirectory : found.isDirectory = true)
    (h : t.statusOf found = .ok status) : status.childCount = (t.entriesOf found).length := by
  cases found with
  | snapshotDir dir =>
      obtain ⟨policy, _, hStatus⟩ := bind_eq_ok_iff.mp h
      cases hStatus
      simp [entriesOf]
  | node id layer n =>
      obtain ⟨children, hChildren⟩ := Option.isSome_iff_exists.mp hDirectory
      obtain ⟨policy, _, hStatus⟩ := bind_eq_ok_iff.mp h
      cases hStatus
      simp [entriesOf, hChildren, SortedMap.size]

/-- An entry of what a path leads to is found by its name behind that path, and
goes by this name. -/
theorem Finds.entry (hSound : t.Sound) (h : t.Finds names found) {e : Entry}
    (hEntry : e ∈ t.entriesOf found) :
    Path.isValidName e.name = true ∧ ∃ n, t.view e.layer e.id = some n ∧
      t.Finds (names ++ [e.name]) (.node e.id e.layer n) ∧
      t.displayName e.id e.layer n = e.name := by
  have hChild : ∀ {layer : Layer} {id : NodeId} {n : Node},
      e ∈ t.entriesOf (.node id layer n) → n.child? e.name = some e.id ∧ e.layer = layer := by
    intro layer id n hEntry
    cases hChildren : n.children? with
    | none => simp [entriesOf, hChildren] at hEntry
    | some children =>
        simp only [entriesOf, hChildren] at hEntry
        obtain ⟨⟨name, child⟩, hMem, rfl⟩ := List.mem_map.mp hEntry
        exact ⟨Node.child?_eq_some_iff.mpr ⟨_, hChildren, SortedMap.mem_entries_iff.mp hMem⟩, rfl⟩
  cases h with
  | @live names id n outside way seen =>
      obtain ⟨entry, hLayer⟩ := hChild hEntry
      obtain ⟨hValid, cn, hSeen, hName, _⟩ := hSound.live.down seen entry
      rw [hLayer]
      refine ⟨hValid, cn, hSeen, .live ?_ (way.snoc seen entry) hSeen, hName⟩
      rw [List.mem_append, List.mem_singleton]
      rintro (hBefore | hSame)
      · exact outside hBefore
      · exact (Path.isValidName_iff.mp hValid).2 hSame.symm
  | @frozen dir below s id n outside held entrance way seen =>
      obtain ⟨entry, hLayer⟩ := hChild hEntry
      have hFrozen := hSound.frozen s held
      obtain ⟨hValid, cn, hSeen, hName, _⟩ := hFrozen.down seen entry
      have hFinds := Finds.frozen outside held entrance (way.snoc seen entry) hSeen
      have hStrict : e.id ≠ s.root :=
        (NodeId.ne_of_lt (hFrozen.lt_of_leads_child way seen entry)).symm
      rw [hLayer, List.append_assoc]
      refine ⟨hValid, cn, hSeen, hFinds, ?_⟩
      rw [displayName_frozen hSound held, if_neg hStrict, hName]
  | @snapshots dir id n outside way seen directory =>
      obtain ⟨s, hOf, rfl⟩ := List.mem_map.mp hEntry
      simp only [Shelf.snapshotsOf, List.mem_filter, decide_eq_true_eq] at hOf
      obtain ⟨held, rfl⟩ := hOf
      obtain ⟨top, hTop, _⟩ := hSound.shown s held
      rw [List.append_assoc]
      refine ⟨hSound.named s held, top, hTop, .frozen outside held way (.here _) hTop, ?_⟩
      rw [displayName_frozen hSound held, if_pos rfl]

/-- Where all entries have their states and their names, a listing leaves none
of them out. -/
theorem statuses_of_entries {entries : List Entry}
    (h : ∀ e ∈ entries, ∃ n status, t.view e.layer e.id = some n ∧
      t.statusOfNode e.id e.layer n = .ok status ∧ status.name = e.name) :
    ∃ statuses, ((t.visible (entries.map fun e => (e.id, e.layer))).mapM
        fun e => t.statusOfNode e.1 e.2.1 e.2.2) = .ok statuses ∧
      statuses.map (·.name) = entries.map (·.name) ∧
      ∀ status ∈ statuses, ∃ e ∈ entries, status.name = e.name ∧
        ∃ n, t.view e.layer e.id = some n ∧ t.statusOfNode e.id e.layer n = .ok status := by
  induction entries with
  | nil => exact ⟨[], rfl, rfl, by simp⟩
  | cons e rest ih =>
      obtain ⟨n, status, seen, hStatus, hName⟩ := h e (List.mem_cons_self ..)
      obtain ⟨statuses, hRest, hNames, hFrom⟩ := ih fun e' he' => h e' (List.mem_cons_of_mem _ he')
      have hNode : t.node? e.id e.layer = some n := seen
      have hVisible : t.visible ((e :: rest).map fun e => (e.id, e.layer)) =
          (e.id, e.layer, n) :: t.visible (rest.map fun e => (e.id, e.layer)) := by
        simp [visible, hNode]
      refine ⟨status :: statuses, ?_, by rw [List.map_cons, List.map_cons, hName, hNames], ?_⟩
      · rw [hVisible, List.mapM_cons, hStatus, hRest]
        rfl
      · intro other hOther
        rcases List.mem_cons.mp hOther with rfl | hOther
        · exact ⟨e, List.mem_cons_self .., hName, n, seen, hStatus⟩
        · obtain ⟨e', he', hEnd⟩ := hFrom other hOther
          exact ⟨e', List.mem_cons_of_mem _ he', hEnd⟩

end Statuses

/-- Listings, statuses and paths agree. In every tree that edits lead to, what a
path leads to has a status and a listing. A directory, live or in a snapshot, or
a list of snapshots lists as many entries as its status counts, in the order of
the bytes of their names, and each of them is the status of the path with its
name put to the end. A file lists itself. -/
theorem list_agrees {edits : List Edit} (hRun : new.run edits = .ok t)
    (hResolve : t.resolve path = .ok found) :
    ∃ status entries, t.info path = .ok status ∧ t.list path = .ok entries ∧
      (found.isDirectory = true → entries.length = status.childCount ∧
        entries.Pairwise (fun d e => Utf8.encode d.name < Utf8.encode e.name) ∧
        ∀ e ∈ entries, t.info (Path.join path e.name) = .ok e) ∧
      (found.isDirectory = false → entries = [status]) := by
  have hSound := (run_sound new_sound hRun).1
  obtain ⟨names, hSplit⟩ := split_of_resolve hResolve
  have hFinds := (resolve_eq_ok_iff hSound hSplit).mp hResolve
  obtain ⟨status, hStatus⟩ := hFinds.status hSound
  have hInfo : t.info path = .ok status := by
    simp only [info, hResolve, hStatus, mapError_ok]
  cases hKind : found.isDirectory with
  | true =>
      have hEntries : ∀ e ∈ t.entriesOf found, ∃ n status, t.view e.layer e.id = some n ∧
          t.statusOfNode e.id e.layer n = .ok status ∧ status.name = e.name := by
        intro e hEntry
        obtain ⟨_, n, seen, hBehind, hName⟩ := hFinds.entry hSound hEntry
        obtain ⟨status, hStatus⟩ := hBehind.status hSound
        exact ⟨n, status, seen, hStatus, (name_of_status hStatus).trans hName⟩
      obtain ⟨statuses, hListed, hNames, hFrom⟩ := statuses_of_entries hEntries
      refine ⟨status, statuses, hInfo, ?_, fun _ => ⟨?_, ?_, ?_⟩, by simp⟩
      · rw [list, hResolve]
        simp only [listed_eq hKind, hListed, mapError_ok]
      · rw [childCount_of_status hKind hStatus, ← List.length_map (·.name), hNames,
          List.length_map]
      · have hOrder := List.pairwise_map.mpr (t.entriesOf_ascending found)
        rw [← hNames] at hOrder
        exact (List.pairwise_map.mp hOrder).imp fun hLt => Utf8.encode_lt_of_lt hLt
      · intro e hMem
        obtain ⟨entry, hEntry, hName, n, seen, hOwn⟩ := hFrom e hMem
        obtain ⟨hValid, m, hSeen, hBehind, _⟩ := hFinds.entry hSound hEntry
        rw [seen, Option.some.injEq] at hSeen
        subst hSeen
        have hJoined := resolve_of_finds hSound (Path.split_join hSplit hValid) hBehind
        rw [hName, info, hJoined]
        simp only [statusOf, hOwn, mapError_ok]
  | false =>
      cases found with
      | snapshotDir dir => cases hKind
      | node id layer n =>
          have hNone : n.children? = none := by
            simpa [Resolved.isDirectory, Node.isDirectory] using hKind
          have hOwn : t.statusOfNode id layer n = .ok status := hStatus
          refine ⟨status, [status], hInfo, ?_, by simp, fun _ => rfl⟩
          rw [list, hResolve]
          simp only [listed, hNone, List.mapM_cons, List.mapM_nil, hOwn]
          rfl

/-- A snapshot lists what has been deleted since, also where its path ends with a
slash. -/
theorem list_agrees_below_snapshot :
    ∃ t found status entries, new.run [.mkdirs "/a/b", .createFile "/a/c" 2,
        .createSnapshot "/a" "s", .delete "/a/b" false] = .ok t ∧
      t.resolve "/a/.snapshot/s/" = .ok found ∧ found.isDirectory = true ∧
      t.info "/a/.snapshot/s/" = .ok status ∧ status.childCount = 2 ∧
      t.list "/a/.snapshot/s/" = .ok entries ∧ entries.length = 2 ∧
      ∀ e ∈ entries, t.info (Path.join "/a/.snapshot/s/" e.name) = .ok e := by
  obtain ⟨t, hRun, hFound, hCount⟩ : ∃ t,
      new.run [.mkdirs "/a/b", .createFile "/a/c" 2, .createSnapshot "/a" "s",
        .delete "/a/b" false] = .ok t ∧
      (t.resolve "/a/.snapshot/s/").map (·.isDirectory) = .ok true ∧
      (t.info "/a/.snapshot/s/").map (·.childCount) = .ok 2 :=
    ⟨_, rfl, by decide +kernel, by decide +kernel⟩
  obtain ⟨found, hResolve, hKind⟩ := map_eq_ok_iff.mp hFound
  obtain ⟨status, entries, hInfo, hList, hDirectory, _⟩ := list_agrees hRun hResolve
  obtain ⟨hLength, _, hOwn⟩ := hDirectory hKind
  have hTwo : status.childCount = 2 := by simpa [hInfo, Except.map] using hCount
  exact ⟨t, found, status, entries, hRun, hResolve, hKind, hInfo, hTwo, hList,
    hLength.trans hTwo, hOwn⟩

end Tree

end TierTree
