import TierTree.Proofs.Tree.Descent

/-!
The invariant of trees. The live tree and what each snapshot sees form trees,
and every version is older than the writes to come. Carrying out a plan that
fits keeps all of it, and never changes what a snapshot that stays can see.
-/

namespace TierTree

namespace Shelf

theorem mem_toList_iff {shelf : Shelf} {s : Snapshot} :
    s ∈ shelf.toList ↔ shelf.get? s.root s.name = some s := by
  simp only [toList, List.mem_map, get?, Option.map_eq_some_iff, Prod.exists]
  constructor
  · rintro ⟨key, mark, hEntry, rfl⟩
    exact ⟨mark, SortedMap.mem_entries_iff.mp hEntry, rfl⟩
  · rintro ⟨mark, hMark, hSame⟩
    exact ⟨⟨s.root, s.name⟩, mark, SortedMap.mem_entries_iff.mpr hMark, hSame⟩

/-- What is found under a directory and a name is a snapshot of that directory
with that name. -/
theorem key_of_get? {shelf : Shelf} {root : NodeId} {name : String} {s : Snapshot}
    (h : shelf.get? root name = some s) : s.root = root ∧ s.name = name := by
  obtain ⟨mark, _, rfl⟩ := Option.map_eq_some_iff.mp h
  exact ⟨rfl, rfl⟩

theorem mem_toList_insert {shelf : Shelf} {x s : Snapshot} (h : s ∈ (shelf.insert x).toList) :
    s = x ∨ s ∈ shelf.toList := by
  rw [mem_toList_iff, get?_insert] at h
  split at h
  · exact .inl (Option.some.inj h).symm
  · exact .inr (mem_toList_iff.mpr h)

/-- What holds of a snapshot and of those before it holds of all. -/
theorem forall_mem_insert {shelf : Shelf} {x : Snapshot} {P : Snapshot → Prop} (hNew : P x)
    (hOld : ∀ s ∈ shelf.toList, P s) : ∀ s ∈ (shelf.insert x).toList, P s := by
  intro s hs
  rcases mem_toList_insert hs with rfl | hs
  · exact hNew
  · exact hOld s hs

theorem mem_toList_remove {shelf : Shelf} {root : NodeId} {name : String} {s : Snapshot} :
    s ∈ (shelf.remove root name).toList ↔
      s ∈ shelf.toList ∧ ¬ (s.root = root ∧ s.name = name) := by
  rw [mem_toList_iff, mem_toList_iff, get?_remove]
  split
  next same => simp [same]
  next other => simp [other]

theorem hasSnapshots_eq_false_iff {shelf : Shelf} {root : NodeId} :
    shelf.hasSnapshots root = false ↔ ∀ s ∈ shelf.toList, s.root ≠ root := by
  simp [hasSnapshots, snapshotsOf, List.isEmpty_iff, List.filter_eq_nil_iff]

end Shelf

namespace Tree

/-- What edits keep of every tree. -/
structure Sound (t : Tree) : Prop where
  kept : t.Kept
  live : (t.view .live).Hierarchy
  held : ∀ s ∈ t.shelf.toList, ∃ n, t.view .live s.root = some n ∧ n.isDirectory = true
  frozen : ∀ s ∈ t.shelf.toList, (t.view s.layer).Hierarchy
  shown : ∀ s ∈ t.shelf.toList, ∃ n, t.view s.layer s.root = some n ∧ n.isDirectory = true
  named : ∀ s ∈ t.shelf.toList, Path.isValidName s.name = true
  earlier : ∀ s ∈ t.shelf.toList, s.epoch < t.epoch
  apart : ∀ s ∈ t.shelf.toList, ∀ s' ∈ t.shelf.toList, s.epoch = s'.epoch → s = s'

/-- What a later tree keeps of an earlier one: what snapshots see, and the
places of the nodes that are still there. -/
structure Succeeds (later t : Tree) : Prop where
  epoch : t.epoch ≤ later.epoch
  nextId : ∀ {id}, id < t.nextId → id < later.nextId
  shelf : ∀ {s}, s ∈ later.shelf.toList → s ∈ t.shelf.toList ∨ t.epoch ≤ s.epoch
  past : ∀ {s}, s ∈ later.shelf.toList → s.epoch < t.epoch →
    later.past s.epoch = t.past s.epoch
  places : ∀ {id n}, later.view .live id = some n → id < t.nextId →
    ∃ m, t.view .live id = some m ∧ n.name = m.name ∧ n.parent = m.parent

theorem Succeeds.refl (t : Tree) : t.Succeeds t :=
  ⟨UInt64.le_refl _, fun h => h, .inl, fun _ _ => rfl, fun seen _ => ⟨_, seen, rfl, rfl⟩⟩

theorem Succeeds.trans {latest later t : Tree} (second : latest.Succeeds later)
    (first : later.Succeeds t) : latest.Succeeds t := by
  constructor
  case epoch => exact UInt64.le_trans first.epoch second.epoch
  case nextId => exact fun h => second.nextId (first.nextId h)
  case shelf =>
    intro s hs
    rcases second.shelf hs with hLater | hNew
    · exact first.shelf hLater
    · exact .inr (UInt64.le_trans first.epoch hNew)
  case past =>
    intro s hs hEarly
    have hBefore := UInt64.lt_of_lt_of_le hEarly first.epoch
    rcases second.shelf hs with hLater | hNew
    · exact (second.past hs hBefore).trans (first.past hLater hEarly)
    · exact absurd hBefore (UInt64.not_lt.mpr hNew)
  case places =>
    intro id n seen hOld
    obtain ⟨m, hLater, hName, hParent⟩ := second.places seen (first.nextId hOld)
    obtain ⟨k, hFirst, hName', hParent'⟩ := first.places hLater hOld
    exact ⟨k, hFirst, hName.trans hName', hParent.trans hParent'⟩

/-- The root alone is a sound tree. -/
theorem new_sound : new.Sound := by
  have hLines : ∀ {id line}, new.timelines.get? id = some line →
      id = .root ∧ line = .start 0 (.newDirectory "" none) := by
    intro id line hLine
    simp only [new, SortedMap.get?_insert, SortedMap.get?_empty] at hLine
    split at hLine
    next same => exact ⟨same, (Option.some.inj hLine).symm⟩
    next => cases hLine
  have hSeen : ∀ {id n}, new.view .live id = some n →
      id = .root ∧ n = .newDirectory "" none := by
    intro id n seen
    rw [view_live] at seen
    obtain ⟨line, hLine, hState⟩ := Option.bind_eq_some_iff.mp seen
    obtain ⟨rfl, rfl⟩ := hLines hLine
    exact ⟨rfl, (Option.some.inj hState).symm⟩
  have hNone : ∀ s, s ∉ new.shelf.toList := by
    simp [new, Shelf.empty, Shelf.toList, SortedMap.empty]
  refine ⟨⟨?_, ?_, ?_⟩, ⟨?_, ?_, ?_⟩, ?_, ?_, ?_, ?_, ?_, ?_⟩
  · intro id line hLine
    obtain ⟨-, rfl⟩ := hLines hLine
    exact Timeline.start_dated 0 _
  · intro id line hLine
    obtain ⟨-, rfl⟩ := hLines hLine
    rfl
  · intro id line hLine
    obtain ⟨rfl, -⟩ := hLines hLine
    decide
  · exact ⟨.newDirectory "" none, rfl, rfl, rfl⟩
  · intro id n seen hRoot
    exact absurd (hSeen seen).1 hRoot
  · intro id n name child seen entry
    obtain ⟨-, rfl⟩ := hSeen seen
    cases entry
  all_goals exact fun s hs => absurd hs (hNone s)

/-- A step at the current epoch that leaves the shelf alone keeps a tree sound
as long as the live tree stays a tree and no snapshot loses its directory. -/
theorem Sound.of_edit {t later : Tree} (h : t.Sound) (hKept : later.Kept)
    (hLive : (later.view .live).Hierarchy) (hShelf : later.shelf = t.shelf)
    (hEpoch : later.epoch = t.epoch)
    (hPast : ∀ {epoch}, epoch < t.epoch → later.past epoch = t.past epoch)
    (hHeld : ∀ s ∈ t.shelf.toList, ∀ n, t.view .live s.root = some n → n.isDirectory = true →
      ∃ m, later.view .live s.root = some m ∧ m.isDirectory = true) : later.Sound := by
  have hLayer : ∀ s ∈ t.shelf.toList, later.view s.layer = t.view s.layer := fun s hs => by
    rw [view_layer, view_layer, hPast (h.earlier s hs)]
  constructor
  case kept => exact hKept
  case live => exact hLive
  case held =>
    intro s hs
    rw [hShelf] at hs
    obtain ⟨n, seen, hDirectory⟩ := h.held s hs
    exact hHeld s hs n seen hDirectory
  case frozen =>
    intro s hs
    rw [hShelf] at hs
    exact hLayer s hs ▸ h.frozen s hs
  case shown =>
    intro s hs
    rw [hShelf] at hs
    exact hLayer s hs ▸ h.shown s hs
  case named => exact hShelf ▸ h.named
  case earlier => exact hEpoch ▸ hShelf ▸ h.earlier
  case apart => exact hShelf ▸ h.apart

section Additions
variable {t added : Tree} {parent id : NodeId} {n pn : Node}

/-- Where there is room for a node, it can be added under the next number. -/
theorem Kept.addable (h : t.Kept) {names : List String}
    (room : (t.view .live).Room parent (n.name :: names)) (below : n.parent = some parent)
    (empty : ∀ name, n.child? name = none) :
    ∃ pn, (t.view .live).Addable parent t.nextId n pn := by
  obtain ⟨pn, hParent, hDirectory, hValid, hFree⟩ := room
  refine ⟨pn, ?_, h.numbered_of_view hParent, ⟨hParent, hDirectory⟩, hFree n.name rfl,
    hValid n.name (List.mem_cons_self ..), below, empty⟩
  rw [view_live, h.fresh]
  rfl

theorem view_addChild_eq_add (ok : (t.view .live).Addable parent t.nextId n pn)
    (h : t.addChild parent n = .ok (id, added)) :
    added.view .live = (t.view .live).add parent t.nextId n := by
  rw [view_addChild ok.ne h, (addChild_cases h).1]
  rfl

theorem addChild_sound (hSound : t.Sound) (ok : (t.view .live).Addable parent t.nextId n pn)
    (h : t.addChild parent n = .ok (id, added)) : added.Sound ∧ added.Succeeds t := by
  have hView := view_addChild_eq_add ok h
  have hShelf := shelf_addChild h
  have hEpoch := epoch_addChild h
  constructor
  · refine hSound.of_edit (addChild_kept hSound.kept h) (hView ▸ hSound.live.add ok) hShelf hEpoch
      (past_addChild hSound.kept h) fun s _ m seen hDirectory => ?_
    obtain ⟨m', hSeen, _, _, hKind, _⟩ := View.add_of_seen ok seen
    exact ⟨m', hView ▸ hSeen, hKind.trans hDirectory⟩
  · constructor
    case epoch => exact UInt64.le_of_eq hEpoch.symm
    case nextId => exact fun hOld => KeyOrder.trans hOld (nextId_addChild h)
    case shelf => exact fun hs => .inl (hShelf ▸ hs)
    case past => exact fun _ => past_addChild hSound.kept h
    case places =>
      intro j m seen hOld
      rw [hView] at seen
      rcases View.add_cases ok seen with ⟨rfl, _⟩ | ⟨rfl, rfl⟩ | ⟨_, _, hSame⟩
      · exact absurd hOld (KeyOrder.irrefl _)
      · exact ⟨pn, ok.directory.1, by simp, by simp⟩
      · exact ⟨m, hSame, rfl, rfl⟩

/-- Directories are made one inside the other as long as there is room, and
the last of them has room for what comes next. -/
theorem addDirectories_spec (hSound : t.Sound) {missing more : List String}
    (room : (t.view .live).Room parent (missing ++ more)) :
    (∃ dir added, t.addDirectories parent missing = .ok (dir, added) ∧ added.Sound ∧
      added.Succeeds t ∧ (added.view .live).Room dir more) ∨
    t.addDirectories parent missing = .error .overflow := by
  induction missing generalizing t parent with
  | nil => exact .inl ⟨parent, t, rfl, hSound, .refl t, room⟩
  | cons name rest ih =>
      obtain ⟨pn, ok⟩ := hSound.kept.addable (n := .newDirectory name (some parent)) room rfl
        (fun _ => rfl)
      unfold addDirectories
      cases hAdd : t.addChild parent (.newDirectory name (some parent)) with
      | error f =>
          have hOverflow := addChild_error hAdd
          subst hOverflow
          exact .inr rfl
      | ok result =>
          obtain ⟨dir, added⟩ := result
          obtain ⟨hAdded, hSucceeds⟩ := addChild_sound hSound ok hAdd
          have hDir : added.view .live dir = some (.newDirectory name (some parent)) := by
            rw [view_addChild_eq_add ok hAdd, (addChild_cases hAdd).1, View.add_self ok]
          have hRoom : (added.view .live).Room dir (rest ++ more) := by
            obtain ⟨_, _, _, hValid, _⟩ := room
            exact ⟨_, hDir, rfl, fun other hOther => hValid other (List.mem_cons_of_mem _ hOther),
              fun _ _ => rfl⟩
          rcases ih hAdded hRoom with ⟨last, final, hFinal, hSound', hSucceeds', hRoom'⟩ | hFault
          · exact .inl ⟨last, final, hFinal, hSound', hSucceeds'.trans hSucceeds, hRoom'⟩
          · exact .inr hFault

theorem addDirectories_sound (hSound : t.Sound) {missing more : List String}
    (room : (t.view .live).Room parent (missing ++ more)) {dir : NodeId}
    (h : t.addDirectories parent missing = .ok (dir, added)) :
    added.Sound ∧ added.Succeeds t ∧ (added.view .live).Room dir more := by
  rcases addDirectories_spec hSound room with ⟨_, _, hDone, hResult⟩ | hFault
  · rw [h, Except.ok.injEq, Prod.mk.injEq] at hDone
    obtain ⟨rfl, rfl⟩ := hDone
    exact hResult
  · rw [h] at hFault
    cases hFault

end Additions

section Removal
variable {t : Tree} {parent target : NodeId} {name : String}

theorem removeSubtree_of_subtree {doomed : List NodeId} (h : t.subtree target = .ok doomed) :
    t.removeSubtree parent name target =
      .ok (doomed.foldl bury (t.update parent (·.mapChildren (·.erase name)))) := by
  unfold removeSubtree
  rw [h]
  rfl

/-- A removal is a cut, and nothing but a cut is seen of it. -/
theorem removeSubtree_spec (hSound : t.Sound)
    (ok : (t.view .live).Severable parent name target) :
    ∃ later, t.removeSubtree parent name target = .ok later ∧ later.Kept ∧
      later.view .live = (t.view .live).cut parent name target ∧ later.shelf = t.shelf ∧
      later.epoch = t.epoch ∧ later.nextId = t.nextId ∧
      ∀ {epoch}, epoch < t.epoch → later.past epoch = t.past epoch := by
  obtain ⟨n, seen, _⟩ := ok.seen
  obtain ⟨doomed, hDoomed, hExact⟩ := subtree_spec hSound.live seen
  refine ⟨_, removeSubtree_of_subtree hDoomed,
    foldl_bury_kept _ (update_kept hSound.kept _ _), ?_, by simp, by simp, by simp, ?_⟩
  · funext j
    rw [view_foldl_bury, view_update]
    unfold View.cut
    by_cases hBelow : (t.view .live).Below target j
    · rw [if_pos ((hExact j).mpr hBelow), if_pos hBelow]
    · rw [if_neg (fun hj => hBelow ((hExact j).mp hj)), if_neg hBelow]
      by_cases hj : j = parent
      · subst hj
        simp
      · simp [hj]
  · intro epoch hEarly
    rw [past_foldl_bury _ _ (by simpa using hEarly), past_update _ _ _ hEarly]

theorem removeSubtree_sound (hSound : t.Sound)
    (ok : (t.view .live).Severable parent name target)
    (free : ∀ id, (t.view .live).Below target id → t.shelf.hasSnapshots id = false) :
    ∃ later, t.removeSubtree parent name target = .ok later ∧ later.Sound ∧
      later.Succeeds t := by
  obtain ⟨later, hLater, hKept, hView, hShelf, hEpoch, hNext, hPast⟩ :=
    removeSubtree_spec hSound ok
  refine ⟨later, hLater, ?_, ?_⟩
  · refine hSound.of_edit hKept (hView ▸ hSound.live.cut ok) hShelf hEpoch hPast
      fun s hs n seen hDirectory => ?_
    have hOutside : ¬ (t.view .live).Below target s.root := fun below =>
      Shelf.hasSnapshots_eq_false_iff.mp (free s.root below) s hs rfl
    obtain ⟨m, hCut, _, _, hKind, _⟩ := View.cut_of_seen parent name seen hOutside
    exact ⟨m, hView ▸ hCut, hKind.trans hDirectory⟩
  · constructor
    case epoch => exact UInt64.le_of_eq hEpoch.symm
    case nextId => exact fun hOld => hNext ▸ hOld
    case shelf => exact fun hs => .inl (hShelf ▸ hs)
    case past => exact fun _ => hPast
    case places =>
      intro j m seen _
      rw [hView] at seen
      obtain ⟨_, n, hn, hName, hParent, _⟩ := View.seen_of_cut seen
      exact ⟨n, hn, hName, hParent⟩

end Removal

/-- Setting a policy changes nothing but that policy. -/
theorem setPolicy_sound {t : Tree} (hSound : t.Sound) (target : NodeId) (policy : PolicyId) :
    (t.update target fun n => { n with policy := policy }).Sound ∧
      (t.update target fun n => { n with policy := policy }).Succeeds t := by
  have hView : (t.update target fun n => { n with policy := policy }).view .live =
      (t.view .live).govern target policy := view_update ..
  constructor
  · refine hSound.of_edit (update_kept hSound.kept _ _) (hView ▸ hSound.live.govern _ _)
      (shelf_update ..) (epoch_update ..) (past_update _ _ _) fun s _ n seen hDirectory => ?_
    obtain ⟨m, hSeen, _, _, hContent⟩ := View.samePlaces_govern _ target policy seen
    exact ⟨m, hView ▸ hSeen, (Node.isDirectory_congr hContent).trans hDirectory⟩
  · constructor
    case epoch => exact UInt64.le_of_eq (epoch_update ..).symm
    case nextId => exact fun hOld => (nextId_update ..).symm ▸ hOld
    case shelf => exact fun hs => .inl (shelf_update t .. ▸ hs)
    case past => exact fun _ => past_update _ _ _
    case places =>
      intro j m seen _
      rw [hView] at seen
      obtain ⟨n, hn, hName, hParent, _⟩ := View.govern_samePlaces _ _ _ seen
      exact ⟨n, hn, hName.symm, hParent.symm⟩

section Snapshots
variable {t : Tree} {root : NodeId} {name : String} {n : Node}

/-- The tree after a snapshot that finds this policy inherited. -/
def withSnapshot (t : Tree) (root : NodeId) (name : String) (inherited : PolicyId)
    (next : Epoch) : Tree :=
  { t with shelf := t.shelf.insert ⟨name, root, t.epoch, inherited⟩, epoch := next }

variable (name) in
theorem takeSnapshot_spec (hSound : t.Sound) (seen : t.view .live root = some n) :
    (∃ inherited next, t.inheritedPolicy root = .ok inherited ∧ successor t.epoch = .ok next ∧
      t.takeSnapshot root name = .ok (t.withSnapshot root name inherited next)) ∨
    t.takeSnapshot root name = .error .overflow := by
  obtain ⟨inherited, hInherited, _⟩ := inheritedPolicy_spec hSound.live seen
  unfold takeSnapshot
  cases hNext : successor t.epoch with
  | error f =>
      have hOverflow := fault_of_successor hNext
      subst hOverflow
      exact .inr (by rw [hInherited]; rfl)
  | ok next => exact .inl ⟨inherited, next, hInherited, rfl, by rw [hInherited]; rfl⟩

/-- A snapshot of a directory leaves a sound tree: it keeps the epoch that ends, and
nothing of the tree is changed by it. -/
theorem withSnapshot_sound (hSound : t.Sound) (seen : t.view .live root = some n)
    (hDirectory : n.isDirectory = true) (hName : Path.isValidName name = true)
    (inherited : PolicyId) {next : Epoch} (hLater : t.epoch < next) :
    (t.withSnapshot root name inherited next).Sound := by
  have hView : ∀ layer, (t.withSnapshot root name inherited next).view layer = t.view layer :=
    view_congr rfl
  have hNew : (t.withSnapshot root name inherited next).view
      (Snapshot.layer ⟨name, root, t.epoch, inherited⟩) = t.view .live := by
    rw [hView, view_layer]
    exact hSound.kept.past_now
  constructor
  case kept =>
    exact ⟨fun hLine => (hSound.kept.dated hLine).mono (UInt64.le_of_lt hLater),
      hSound.kept.present, hSound.kept.numbered⟩
  case live => exact hView .live ▸ hSound.live
  case held =>
    rw [hView]
    exact Shelf.forall_mem_insert ⟨n, seen, hDirectory⟩ hSound.held
  case frozen =>
    exact Shelf.forall_mem_insert (hNew ▸ hSound.live)
      fun s hs => hView s.layer ▸ hSound.frozen s hs
  case shown =>
    exact Shelf.forall_mem_insert (hNew ▸ ⟨n, seen, hDirectory⟩)
      fun s hs => hView s.layer ▸ hSound.shown s hs
  case named => exact Shelf.forall_mem_insert hName hSound.named
  case earlier =>
    exact Shelf.forall_mem_insert hLater
      fun s hs => UInt64.lt_trans (hSound.earlier s hs) hLater
  case apart =>
    -- the epoch of the new snapshot is the one in which no other was taken
    refine Shelf.forall_mem_insert (Shelf.forall_mem_insert (fun _ => rfl) ?_)
      fun s hs => Shelf.forall_mem_insert ?_ (hSound.apart s hs)
    · exact fun s hs hSame => absurd (hSound.earlier s hs) (hSame ▸ UInt64.lt_irrefl _)
    · exact fun hSame => absurd (hSound.earlier s hs) (hSame ▸ UInt64.lt_irrefl _)

theorem withSnapshot_succeeds (t : Tree) (root : NodeId) (name : String) (inherited : PolicyId)
    {next : Epoch} (hLater : t.epoch < next) :
    (t.withSnapshot root name inherited next).Succeeds t := by
  have hView : (t.withSnapshot root name inherited next).view .live = t.view .live :=
    view_congr rfl .live
  constructor
  case epoch => exact UInt64.le_of_lt hLater
  case nextId => exact fun hOld => hOld
  case shelf =>
    intro s hs
    rcases Shelf.mem_toList_insert hs with rfl | hs
    · exact .inr (UInt64.le_refl _)
    · exact .inl hs
  case past => exact fun _ _ => past_congr rfl _
  case places => exact fun hSeen _ => ⟨_, hView ▸ hSeen, rfl, rfl⟩

/-- Deleting a snapshot keeps what the others see. -/
theorem deleteSnapshot_sound (hSound : t.Sound) (root : NodeId) (name : String) :
    ({ t with shelf := t.shelf.remove root name }.prune).Sound ∧
      ({ t with shelf := t.shelf.remove root name }.prune).Succeeds t := by
  have hKept : ({ t with shelf := t.shelf.remove root name } : Tree).Kept :=
    ⟨hSound.kept.dated, hSound.kept.present, hSound.kept.numbered⟩
  have hLive : ({ t with shelf := t.shelf.remove root name }.prune).view .live = t.view .live :=
    (view_prune _).trans (view_congr rfl _)
  have hPast : ∀ {s}, s ∈ (t.shelf.remove root name).toList →
      ({ t with shelf := t.shelf.remove root name }.prune).past s.epoch = t.past s.epoch :=
    fun hs => (past_prune _ (Shelf.mem_epochs_iff.mpr ⟨_, hs, rfl⟩)).trans (past_congr rfl _)
  have hLayer : ∀ s ∈ (t.shelf.remove root name).toList,
      ({ t with shelf := t.shelf.remove root name }.prune).view s.layer = t.view s.layer :=
    fun s hs => by rw [view_layer, view_layer, hPast hs]
  have hOld : ∀ {s}, s ∈ (t.shelf.remove root name).toList → s ∈ t.shelf.toList :=
    fun hs => (Shelf.mem_toList_remove.mp hs).1
  constructor
  · constructor
    case kept => exact prune_kept hKept
    case live => exact hLive ▸ hSound.live
    case held => exact fun s hs => hLive ▸ hSound.held s (hOld hs)
    case frozen => exact fun s hs => hLayer s hs ▸ hSound.frozen s (hOld hs)
    case shown => exact fun s hs => hLayer s hs ▸ hSound.shown s (hOld hs)
    case named => exact fun s hs => hSound.named s (hOld hs)
    case earlier => exact fun s hs => hSound.earlier s (hOld hs)
    case apart => exact fun s hs s' hs' => hSound.apart s (hOld hs) s' (hOld hs')
  · constructor
    case epoch => exact UInt64.le_refl _
    case nextId => exact fun h => h
    case shelf => exact fun hs => .inl (hOld hs)
    case past => exact fun hs _ => hPast hs
    case places => exact fun hSeen _ => ⟨_, hLive ▸ hSeen, rfl, rfl⟩

end Snapshots

/-- Carrying out a plan that fits leads to a sound tree that succeeds the old
one, or uses up a counter. -/
theorem execute_spec {t : Tree} (hSound : t.Sound) {p : Plan} (fits : t.Fits p) :
    (∃ id later, t.execute p = .ok (id, later) ∧ later.Sound ∧ later.Succeeds t) ∨
    t.execute p = .error .overflow := by
  cases p with
  | mkdirs parent missing =>
      have room : (t.view .live).Room parent (missing ++ []) := by
        simpa [Fits] using fits
      rcases addDirectories_spec hSound room with ⟨dir, added, hAdd, hAdded, hNext, _⟩ | hFault
      · exact .inl ⟨dir, added, hAdd, hAdded, hNext⟩
      · exact .inr hFault
  | createFile parent missing name replication =>
      simp only [execute]
      rcases addDirectories_spec hSound fits with ⟨dir, added, hAdd, hAdded, hNext, hRoom⟩ | hFault
      · rw [hAdd]
        obtain ⟨pn, ok⟩ := hAdded.kept.addable (n := .newFile name dir replication) hRoom rfl
          (fun _ => rfl)
        cases hFile : added.addChild dir (.newFile name dir replication) with
        | error f =>
            have hOverflow := addChild_error hFile
            subst hOverflow
            exact .inr hFile
        | ok result =>
            obtain ⟨hSound', hNext'⟩ := addChild_sound hAdded ok hFile
            exact .inl ⟨_, _, hFile, hSound', hNext'.trans hNext⟩
      · rw [hFault]
        exact .inr rfl
  | delete parent name target =>
      obtain ⟨later, hLater, hSound', hNext⟩ := removeSubtree_sound hSound fits.1 fits.2
      exact .inl ⟨target, later, by simp only [execute, hLater]; rfl, hSound', hNext⟩
  | setPolicy target policy =>
      exact .inl ⟨_, _, rfl, setPolicy_sound hSound target policy⟩
  | createSnapshot root name =>
      obtain ⟨⟨n, seen, hDirectory⟩, hName, _⟩ := fits
      simp only [execute]
      rcases takeSnapshot_spec name hSound seen with ⟨inherited, next, _, hNext, hTaken⟩ | hFault
      · rw [hTaken]
        have hLater := lt_of_successor hNext
        exact .inl ⟨root, _, rfl, withSnapshot_sound hSound seen hDirectory hName inherited hLater,
          withSnapshot_succeeds t root name inherited hLater⟩
      · rw [hFault]
        exact .inr rfl
  | deleteSnapshot root name =>
      exact .inl ⟨_, _, rfl, deleteSnapshot_sound hSound root name⟩

end Tree

end TierTree
