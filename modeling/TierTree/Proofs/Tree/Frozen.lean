import Mathlib.Data.List.Induction
import TierTree.Proofs.Tree.Follow
import TierTree.Proofs.Tree.Run

/-!
Reading through a snapshot. Whatever edits follow, a snapshot that is still
held answers every read as the live tree did just before it was taken.
-/

namespace TierTree

/-- A status as the snapshot tells it: its directory goes by the name of the
snapshot. -/
def Snapshot.entitle (s : Snapshot) (status : FileStatus) : FileStatus :=
  if status.nodeId = s.root then { status with name := s.name } else status

namespace Tree

/-- `t` holds a snapshot that was taken of `origin`, and sees what was live
there. -/
structure Shows (t : Tree) (s : Snapshot) (origin : Tree) : Prop where
  sound : t.Sound
  originSound : origin.Sound
  held : s ∈ t.shelf.toList
  seen : t.view s.layer = origin.view .live
  inherited : origin.inheritedPolicy s.root = .ok s.inherited

section Reads
variable {t origin : Tree} {s : Snapshot} {id : NodeId} {n : Node}

theorem find?_snapshotsOf (hSound : t.Sound) (hs : s ∈ t.shelf.toList) :
    (t.shelf.snapshotsOf s.root).find? (·.epoch = s.epoch) = some s := by
  have hMem : s ∈ t.shelf.snapshotsOf s.root := by simpa [Shelf.snapshotsOf] using hs
  have hSome : ((t.shelf.snapshotsOf s.root).find? (·.epoch = s.epoch)).isSome :=
    List.find?_isSome.mpr ⟨s, hMem, by simp⟩
  obtain ⟨x, hx⟩ := Option.isSome_iff_exists.mp hSome
  have hEpoch : x.epoch = s.epoch := by simpa using List.find?_some hx
  have hHeld : x ∈ t.shelf.toList := (List.mem_filter.mp (List.mem_of_find?_eq_some hx)).1
  rw [hx, hSound.apart x hHeld s hs hEpoch]

theorem displayName_frozen (hSound : t.Sound) (hs : s ∈ t.shelf.toList) (id : NodeId) (n : Node) :
    t.displayName id s.layer n = if id = s.root then s.name else n.name := by
  by_cases hRoot : id = s.root
  · simp [displayName, Snapshot.layer, hRoot, find?_snapshotsOf hSound hs]
  · simp [displayName, Snapshot.layer, hRoot, Ne.symm hRoot]

namespace Shows

theorem hierarchy (h : t.Shows s origin) : (t.view s.layer).Hierarchy :=
  h.seen ▸ h.originSound.live

/-- What a snapshot has in force was in force when it was taken. -/
theorem inForce (h : t.Shows s origin) {policy : PolicyId}
    (force : (origin.view .live).InForce s.root s.inherited id policy) :
    (origin.view .live).InForce .root .unspecified id policy := by
  induction force with
  | own seen explicit => exact .own seen explicit
  | top seen silent =>
      obtain ⟨inherited, hInherited, hCase⟩ := inheritedPolicy_spec h.originSound.live seen
      rw [h.inherited, Except.ok.injEq] at hInherited
      subst hInherited
      rcases hCase with ⟨hRoot, hNone⟩ | ⟨parent, link, hParent⟩
      · rw [hRoot] at seen ⊢
        rw [hNone]
        exact .top seen silent
      · exact .above seen silent (h.originSound.live.ne_root_of_parent seen link) link hParent
  | above seen silent _ link _ ih =>
      exact .above seen silent (h.originSound.live.ne_root_of_parent seen link) link ih

theorem effectivePolicy (h : t.Shows s origin) (below : (origin.view .live).Below s.root id)
    (seen : origin.view .live id = some n) :
    t.effectivePolicy id s.layer = origin.effectivePolicy id .live := by
  obtain ⟨policy, hFrozen, force⟩ := effectivePolicy_spec h.hierarchy (h.seen ▸ below)
    (h.seen ▸ seen)
  obtain ⟨policy', hLive, force'⟩ := effectivePolicy_live h.originSound.live seen
  have hSame := (h.inForce (h.seen ▸ force)).deterministic force'
  rw [hFrozen, hLive, hSame]

theorem statusOfNode (h : t.Shows s origin) (below : (origin.view .live).Below s.root id)
    (seen : origin.view .live id = some n) :
    t.statusOfNode id s.layer n = (origin.statusOfNode id .live n).map s.entitle := by
  unfold Tree.statusOfNode
  rw [h.effectivePolicy below seen, displayName_frozen h.sound h.held]
  cases origin.effectivePolicy id .live with
  | error f => rfl
  | ok policy =>
      by_cases hRoot : id = s.root
      · simp [bind, Except.bind, pure, Except.pure, Except.map, Snapshot.entitle, hRoot]
      · simp [bind, Except.bind, pure, Except.pure, Except.map, Snapshot.entitle, hRoot,
          displayName]

/-- Strictly below the directory of a snapshot no name is changed. -/
theorem statusOfNode_below (h : t.Shows s origin) (below : (origin.view .live).Below s.root id)
    (strict : id ≠ s.root) (seen : origin.view .live id = some n) :
    t.statusOfNode id s.layer n = origin.statusOfNode id .live n := by
  rw [h.statusOfNode below seen]
  unfold Tree.statusOfNode
  cases origin.effectivePolicy id .live with
  | error f => rfl
  | ok policy =>
      simp [bind, Except.bind, pure, Except.pure, Except.map, Snapshot.entitle, strict]

theorem mapM_congr {α β ε : Type} {f g : α → Except ε β} {l : List α}
    (hSame : ∀ a ∈ l, f a = g a) : l.mapM f = l.mapM g := by
  induction l with
  | nil => rfl
  | cons a rest ih =>
      rw [List.mapM_cons, List.mapM_cons, hSame a (List.mem_cons_self ..),
        ih fun b hb => hSame b (List.mem_cons_of_mem _ hb)]

/-- The entries that a frozen directory shows are the ones it showed. -/
theorem visible (h : t.Shows s origin) (ids : List NodeId) :
    t.visible (ids.map (·, s.layer)) =
      (origin.visible (ids.map (·, .live))).map fun e => (e.1, s.layer, e.2.2) := by
  have hNode : ∀ child, t.node? child s.layer = origin.node? child .live := congrFun h.seen
  simp only [Tree.visible, List.filterMap_map, List.map_filterMap]
  congr 1
  funext child
  simp only [Function.comp, hNode, Option.map_map]
  rfl

/-- A node below a snapshot lists as it did, whether it is a directory or a
file. -/
theorem statuses (h : t.Shows s origin) (below : (origin.view .live).Below s.root id)
    (seen : origin.view .live id = some n) :
    ((t.listed (.node id s.layer n)).mapM fun e => t.statusOfNode e.1 e.2.1 e.2.2) =
      (origin.listed (.node id .live n)).mapM fun e => origin.statusOfNode e.1 e.2.1 e.2.2 := by
  cases hChildren : n.children? with
  | none =>
      have strict : id ≠ s.root := by
        rintro rfl
        obtain ⟨m, hSeen, hDirectory⟩ := h.sound.shown s h.held
        rw [h.seen, seen, Option.some.injEq] at hSeen
        subst hSeen
        simp [Node.isDirectory, hChildren] at hDirectory
      simp only [listed, hChildren, List.mapM_cons, h.statusOfNode_below below strict seen]
      rfl
  | some children =>
      have hFrozen : t.listed (.node id s.layer n) =
          (origin.listed (.node id .live n)).map fun e => (e.1, s.layer, e.2.2) := by
        simp only [listed, hChildren]
        exact h.visible children.values
      rw [hFrozen, List.mapM_map]
      refine mapM_congr fun e hEntry => ?_
      simp only [listed, hChildren, Tree.visible, List.filterMap_map, List.mem_filterMap] at hEntry
      obtain ⟨child, hChild, hState⟩ := hEntry
      obtain ⟨cn, hSeen, rfl⟩ := Option.map_eq_some_iff.mp hState
      have hListed : child ∈ n.childIds := by simpa [Node.childIds, hChildren] using hChild
      obtain ⟨name, entry⟩ := Node.mem_childIds_iff.mp hListed
      obtain ⟨cs, way⟩ := below
      have hLt := h.originSound.live.lt_of_leads_child way seen entry
      exact h.statusOfNode_below ⟨_, way.snoc seen entry⟩ (NodeId.ne_of_lt hLt).symm hSeen

end Shows

end Reads

/-- Reading one path gives what reading another path in another tree gave. The
paths differ in refusals, the layer in what was found, and the name in the
status of the directory of the snapshot. -/
structure ReadsAs (t : Tree) (path : String) (s : Snapshot) (origin : Tree) (path' : String) :
    Prop where
  resolve : t.resolve path =
    ((origin.resolve path').map (.through s.layer)).mapError (TreeError.relocate path)
  info : t.info path =
    ((origin.info path').map s.entitle).mapError (Failure.map (TreeError.relocate path))
  list : t.list path = (origin.list path').mapError (Failure.map (TreeError.relocate path))
  policy : t.effectivePolicyOf path =
    (origin.effectivePolicyOf path').mapError (Failure.map (TreeError.relocate path))

section Paths
variable {t origin : Tree} {s : Snapshot} {dir below : List String} {path path' : String}

/-- A path into a snapshot is followed from the directory of the snapshot on,
as is the path without the snapshot in the tree that it was taken of. -/
theorem Shows.resolve (h : t.Shows s origin) (way : (t.view .live).Leads .root dir s.root)
    (wayBack : (origin.view .live).Leads .root dir s.root) (outside : Path.snapshotDir ∉ dir)
    (hPath : Path.split path = .ok (dir ++ Path.snapshotDir :: s.name :: below))
    (hPath' : Path.split path' = .ok (dir ++ below)) :
    ∃ n, origin.view .live s.root = some n ∧
      t.resolve path = t.follow path s.root s.layer n below ∧
      origin.resolve path' = origin.follow path' s.root .live n below := by
  obtain ⟨r, hRoot, _⟩ := h.sound.live.root
  obtain ⟨r', hRoot', _⟩ := h.originSound.live.root
  obtain ⟨frozen, hFrozen, _⟩ := h.sound.shown s h.held
  obtain ⟨d, hDir, hFollow⟩ := follow_leads path h.sound.live (.inl outside) hRoot way
    (Path.snapshotDir :: s.name :: below)
  obtain ⟨d', hDir', hFollow'⟩ := follow_leads path' h.originSound.live (.inl outside)
    hRoot' wayBack below
  have hDirectory : d.isDirectory = true := by
    obtain ⟨m, hSeen, hKind⟩ := h.sound.held s h.held
    rw [hDir, Option.some.injEq] at hSeen
    exact hSeen ▸ hKind
  have hSame : frozen = d' := by
    rw [h.seen, hDir', Option.some.injEq] at hFrozen
    exact hFrozen.symm
  refine ⟨frozen, h.seen ▸ hFrozen, ?_, ?_⟩
  · rw [resolve_eq_follow hPath hRoot, hFollow,
      follow_snapshot hDirectory (Shelf.mem_toList_iff.mp h.held) hFrozen]
  · rw [resolve_eq_follow hPath' hRoot', hFollow', hSame]

/-- What resolves to the same node, or is refused alike, reads alike. -/
theorem Shows.readsAs_of_resolve (h : t.Shows s origin)
    (hThrough : t.resolve path =
      ((origin.resolve path').map (.through s.layer)).mapError (TreeError.relocate path))
    (hFound : ∀ found, origin.resolve path' = .ok found → ∃ id n, found = .node id .live n ∧
      (origin.view .live).Below s.root id ∧ origin.view .live id = some n) :
    t.ReadsAs path s origin path' := by
  cases hResolve : origin.resolve path' with
  | error e =>
      rw [hResolve] at hThrough
      refine ⟨hResolve ▸ hThrough, ?_, ?_, ?_⟩
      · simp [info, hThrough, hResolve, Except.map, Failure.map]
      · simp [list, hThrough, hResolve, Except.map, Failure.map]
      · simp [effectivePolicyOf, hThrough, hResolve, Except.map, Failure.map]
  | ok found =>
      rw [hResolve] at hThrough
      obtain ⟨id, n, rfl, hBelow, hSeen⟩ := hFound found hResolve
      have hStatus := h.statusOfNode hBelow hSeen
      have hStatuses := h.statuses hBelow hSeen
      have hPolicy := h.effectivePolicy hBelow hSeen
      refine ⟨hResolve ▸ hThrough, ?_, ?_, ?_⟩
      · simp only [info, hThrough, hResolve, Except.map, mapError_ok, Resolved.through,
          statusOf, hStatus]
        cases origin.statusOfNode id .live n <;> rfl
      · simp only [list, hThrough, hResolve, Except.map, mapError_ok, Resolved.through,
          hStatuses]
        cases (origin.listed (.node id .live n)).mapM
          (fun e => origin.statusOfNode e.1 e.2.1 e.2.2) <;> rfl
      · simp only [effectivePolicyOf, hThrough, hResolve, Except.map, mapError_ok,
          Resolved.through, hPolicy]
        cases origin.effectivePolicy id .live <;> rfl

/-- A path into a snapshot reads as the path without the snapshot read in the
tree that the snapshot was taken of. -/
theorem Shows.readsAs (h : t.Shows s origin) (way : (t.view .live).Leads .root dir s.root)
    (wayBack : (origin.view .live).Leads .root dir s.root) (outside : Path.snapshotDir ∉ dir)
    (inside : Path.snapshotDir ∉ below)
    (hPath : Path.split path = .ok (dir ++ Path.snapshotDir :: s.name :: below))
    (hPath' : Path.split path' = .ok (dir ++ below)) : t.ReadsAs path s origin path' := by
  obtain ⟨top, hTop, hResolve, hResolve'⟩ := h.resolve way wayBack outside hPath hPath'
  refine h.readsAs_of_resolve ?_ fun found hFound => ?_
  · rw [hResolve, hResolve']
    exact follow_congr h.seen inside s.root top
  · rw [hResolve'] at hFound
    cases found with
    | snapshotDir dir => exact absurd hFound (follow_ne_snapshotDir (.inl inside))
    | node id layer n =>
        obtain ⟨rfl, hWay, hSeen⟩ := below_of_follow (.inl inside) hTop hFound
        exact ⟨id, n, rfl, ⟨below, hWay⟩, hSeen⟩

end Paths

section History

/-- An edit of this tree takes the snapshot. -/
def Takes (t : Tree) (path : String) (s : Snapshot) : Prop :=
  ∃ later, t.apply (.createSnapshot path s.name) = .ok (s.root, later) ∧ s ∈ later.shelf.toList

/-- Where in a run of edits a snapshot was taken: after the edits `before`,
which lead to `origin`, and by the next one. -/
structure TakenAt (edits before : List Edit) (path : String) (after : List Edit) (origin : Tree)
    (s : Snapshot) : Prop where
  order : edits = before ++ .createSnapshot path s.name :: after
  reached : new.run before = .ok origin
  takes : origin.Takes path s

variable {t later origin : Tree} {s : Snapshot}

/-- The tree that taking a snapshot leads to, and the snapshot itself. -/
theorem createSnapshot_spec (hSound : t.Sound) {path name : String} {id : NodeId}
    (h : t.apply (.createSnapshot path name) = .ok (id, later)) :
    ∃ inherited next, t.inheritedPolicy id = .ok inherited ∧ successor t.epoch = .ok next ∧
      t.shelf.get? id name = none ∧ later = t.withSnapshot id name inherited next ∧
      ∃ n, t.view .live id = some n := by
  obtain ⟨p, hPlan, hExecute⟩ := apply_eq_ok_iff.mp h
  obtain ⟨_, root, _, rfl, ⟨⟨n, seen, _⟩, _, hFree⟩, _⟩ :=
    planCreateSnapshot_spec hSound.live (mapError_eq_ok_iff.mp hPlan)
  simp only [execute] at hExecute
  rcases takeSnapshot_spec name hSound seen with
    ⟨inherited, next, hInherited, hNext, hTaken⟩ | hFault
  · rw [hTaken] at hExecute
    cases hExecute
    exact ⟨inherited, next, hInherited, hNext, hFree, rfl, n, seen⟩
  · rw [hFault] at hExecute
    cases hExecute

theorem shelf_addDirectories {names : List String} {parent dir : NodeId}
    (h : t.addDirectories parent names = .ok (dir, later)) : later.shelf = t.shelf := by
  induction names generalizing t parent with
  | nil =>
      cases h
      rfl
  | cons name rest ih =>
      obtain ⟨⟨id, added⟩, hAdd, hRest⟩ := bind_eq_ok_iff.mp h
      exact (ih hRest).trans (shelf_addChild hAdd)

/-- Only a plan to take a snapshot puts one on the shelf. -/
theorem mem_shelf_of_execute {p : Plan} {id : NodeId} (h : t.execute p = .ok (id, later))
    (held : s ∈ later.shelf.toList) :
    s ∈ t.shelf.toList ∨ ∃ root name, p = .createSnapshot root name := by
  cases p with
  | mkdirs parent missing => exact .inl (shelf_addDirectories h ▸ held)
  | createFile parent missing name replication =>
      obtain ⟨⟨dir, added⟩, hAdd, hFile⟩ := bind_eq_ok_iff.mp h
      exact .inl (shelf_addDirectories hAdd ▸ shelf_addChild hFile ▸ held)
  | delete parent name target =>
      obtain ⟨removed, hRemoved, hRest⟩ := bind_eq_ok_iff.mp h
      obtain ⟨doomed, _, hDone⟩ := bind_eq_ok_iff.mp hRemoved
      cases hRest
      cases hDone
      exact .inl (by simpa using held)
  | setPolicy target policy =>
      cases h
      exact .inl (by simpa using held)
  | createSnapshot root name => exact .inr ⟨root, name, rfl⟩
  | deleteSnapshot root name =>
      cases h
      exact .inl (Shelf.mem_toList_remove.mp held).1

/-- A snapshot that an edit put on the shelf was taken by it. -/
theorem takes_of_new (hSound : t.Sound) {e : Edit} {id : NodeId} (h : t.apply e = .ok (id, later))
    (held : s ∈ later.shelf.toList) (fresh : s ∉ t.shelf.toList) :
    ∃ path, e = .createSnapshot path s.name ∧ t.Takes path s := by
  obtain ⟨p, hPlan, hExecute⟩ := apply_eq_ok_iff.mp h
  obtain ⟨root, name, rfl⟩ := (mem_shelf_of_execute hExecute held).resolve_left fresh
  obtain ⟨path, rfl⟩ := edit_of_plan hPlan
  obtain ⟨inherited, next, _, _, _, rfl, _⟩ := createSnapshot_spec hSound h
  rcases Shelf.mem_toList_insert held with rfl | hOld
  · exact ⟨path, rfl, _, h, held⟩
  · exact absurd hOld fresh

/-- Every snapshot that is held was taken somewhere in the run. -/
theorem exists_takenAt {edits : List Edit} (hRun : new.run edits = .ok t)
    (held : s ∈ t.shelf.toList) :
    ∃ before path after origin, TakenAt edits before path after origin s := by
  induction edits using List.reverseRecOn generalizing t with
  | nil =>
      cases hRun
      simp [new, Shelf.empty, Shelf.toList, SortedMap.empty] at held
  | append_singleton edits e ih =>
      rw [run_append] at hRun
      obtain ⟨u, hBefore, hLast⟩ := bind_eq_ok_iff.mp hRun
      by_cases hOld : s ∈ u.shelf.toList
      · obtain ⟨before, path, after, origin, taken⟩ := ih hBefore hOld
        exact ⟨before, path, after ++ [e], origin, by simp [taken.order], taken.reached,
          taken.takes⟩
      · have hStep : u.attempt e = .ok t := by simpa [run] using hLast
        unfold attempt at hStep
        split at hStep
        next id later hApply =>
          cases hStep
          obtain ⟨path, rfl, hTakes⟩ :=
            takes_of_new (run_sound new_sound hBefore).1 hApply held hOld
          exact ⟨edits, path, [], u, rfl, hBefore, hTakes⟩
        · cases hStep
          exact absurd held hOld
        · cases hStep

/-- What a run leads to shows, through a snapshot that is still held, the tree
it was taken of. -/
theorem TakenAt.shows {edits before after : List Edit} {path : String}
    (taken : TakenAt edits before path after origin s) (hRun : new.run edits = .ok t)
    (held : s ∈ t.shelf.toList) : t.Shows s origin ∧ t.Succeeds origin := by
  obtain ⟨first, hTake, hFirst⟩ := taken.takes
  have hOrigin := (run_sound new_sound taken.reached).1
  obtain ⟨inherited, next, hInherited, hNext, hFree, rfl, n, seen⟩ :=
    createSnapshot_spec hOrigin hTake
  obtain ⟨hFirstSound, hFirstSucceeds⟩ := apply_sound hOrigin hTake
  have hAfter : (origin.withSnapshot s.root s.name inherited next).run after = .ok t := by
    rw [taken.order, run_append, taken.reached] at hRun
    have hStep : origin.attempt (.createSnapshot path s.name) =
        .ok (origin.withSnapshot s.root s.name inherited next) := by rw [attempt, hTake]
    obtain ⟨u, hu, hRest⟩ := bind_eq_ok_iff.mp ((run_cons ..).symm.trans hRun)
    rw [hStep, Except.ok.injEq] at hu
    exact hu ▸ hRest
  obtain ⟨hSound, hSucceeds⟩ := run_sound hFirstSound hAfter
  have hSelf : s = ⟨s.name, s.root, origin.epoch, inherited⟩ := by
    rcases Shelf.mem_toList_insert hFirst with hNew | hOld
    · exact hNew
    · rw [Shelf.mem_toList_iff.mp hOld] at hFree
      cases hFree
  have hEpoch : s.epoch = origin.epoch := congrArg Snapshot.epoch hSelf
  have hEarlier : s.epoch < next := hEpoch ▸ lt_of_successor hNext
  refine ⟨⟨hSound, hOrigin, held, ?_, ?_⟩, hSucceeds.trans hFirstSucceeds⟩
  · rw [view_layer, hSucceeds.past held hEarlier, past_congr rfl, hEpoch]
    exact hOrigin.kept.past_now
  · exact hInherited.trans (congrArg (Except.ok ∘ Snapshot.inherited) hSelf.symm)

/-- The way to a node that was there before is the way it had before. -/
theorem Succeeds.leads (h : t.Succeeds origin) (hSound : t.Sound) (hOrigin : origin.Sound)
    {id : NodeId} {names : List String} (way : (t.view .live).Leads .root names id)
    (old : id < origin.nextId) : (origin.view .live).Leads .root names id := by
  induction id using NodeId.lt_wf.induction generalizing names with
  | _ id ih =>
      obtain ⟨n, seen⟩ := hSound.live.seen_of_leads way hSound.live.root_isSome
      rcases hSound.live.leads_last way seen with ⟨rfl, rfl⟩ | ⟨before, parent, rfl, hBefore, link⟩
      · exact .here _
      · obtain ⟨m, hSeen, hName, hParent⟩ := h.places seen old
        obtain ⟨hLt, pn, hParentSeen, hEntry⟩ :=
          hOrigin.live.up_of_parent hSeen (hParent.symm.trans link)
        rw [hName]
        exact (ih parent hLt hBefore (KeyOrder.trans hLt old)).snoc hParentSeen hEntry

/-- Snapshots are frozen. In every tree that edits lead to, each snapshot that
is held was taken somewhere in the run, and reading below it what is not
itself a `.snapshot` path gives what the same path gave in the tree just before
it was taken. -/
theorem snapshot_reads_frozen {edits : List Edit} {t : Tree} (hRun : new.run edits = .ok t)
    {s : Snapshot} (held : s ∈ t.shelf.toList) :
    (∃ before path after origin, TakenAt edits before path after origin s) ∧
    ∀ before taking after origin, TakenAt edits before taking after origin s →
      ∀ dirPath dir n, t.resolve dirPath = .ok (.node s.root .live n) →
        Path.split dirPath = .ok dir →
        ∀ below, Path.snapshotDir ∉ below →
          ∀ path path', Path.split path = .ok (dir ++ Path.snapshotDir :: s.name :: below) →
            Path.split path' = .ok (dir ++ below) → t.ReadsAs path s origin path' := by
  refine ⟨exists_takenAt hRun held, ?_⟩
  intro before taking after origin taken dirPath dir n hDir hSplit below inside path path'
    hPath hPath'
  obtain ⟨hShows, hSucceeds⟩ := taken.shows hRun held
  obtain ⟨r, hRoot, _⟩ := hShows.sound.live.root
  rw [resolve_eq_follow hSplit hRoot] at hDir
  obtain ⟨way, _, outside⟩ := leads_of_follow hRoot hDir
  obtain ⟨frozen, hFrozen, _⟩ := hShows.sound.shown s held
  have old : s.root < origin.nextId :=
    hShows.originSound.kept.numbered_of_view
      (show origin.view .live _ = _ from hShows.seen ▸ hFrozen)
  exact hShows.readsAs way (hSucceeds.leads hShows.sound hShows.originSound way old) outside inside
    hPath hPath'

/-- The policy of a deleted directory and the directory itself are still read
below the snapshot, after a file has taken the same path. -/
theorem snapshot_reads_frozen_after_delete :
    ∃ t origin : Tree,
      new.run ([.mkdirs "/a/b", .setPolicy "/a" ⟨12⟩] ++ .createSnapshot "/a" "s" ::
        [.delete "/a/b" true, .setPolicy "/a" ⟨8⟩, .createFile "/a/b" 2]) = .ok t ∧
      (⟨"s", ⟨2⟩, 0, .unspecified⟩ : Snapshot) ∈ t.shelf.toList ∧
      new.run [.mkdirs "/a/b", .setPolicy "/a" ⟨12⟩] = .ok origin ∧
      t.ReadsAs "/a/.snapshot/s/b" ⟨"s", ⟨2⟩, 0, .unspecified⟩ origin "/a/b" := by
  obtain ⟨origin, hOrigin, hTakes⟩ : ∃ origin : Tree,
      new.run [.mkdirs "/a/b", .setPolicy "/a" ⟨12⟩] = .ok origin ∧
        origin.Takes "/a" ⟨"s", ⟨2⟩, 0, .unspecified⟩ :=
    ⟨_, rfl, _, rfl, by decide +kernel⟩
  obtain ⟨t, hRun, held, n, hDir⟩ : ∃ t : Tree,
      new.run ([.mkdirs "/a/b", .setPolicy "/a" ⟨12⟩] ++ .createSnapshot "/a" "s" ::
        [.delete "/a/b" true, .setPolicy "/a" ⟨8⟩, .createFile "/a/b" 2]) = .ok t ∧
      (⟨"s", ⟨2⟩, 0, .unspecified⟩ : Snapshot) ∈ t.shelf.toList ∧
      ∃ n, t.resolve "/a" = .ok (.node ⟨2⟩ .live n) :=
    ⟨_, rfl, by decide +kernel, _, rfl⟩
  refine ⟨t, origin, hRun, held, hOrigin, ?_⟩
  exact (snapshot_reads_frozen hRun held).2 _ "/a" _ origin ⟨rfl, hOrigin, hTakes⟩ "/a" ["a"] n
    hDir rfl ["b"] (by decide) _ _ rfl rfl

end History

end Tree

end TierTree
