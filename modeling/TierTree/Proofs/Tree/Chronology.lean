import TierTree.Proofs.Tree.Descent
import TierTree.Proofs.Tree.Restore

/-!
The order of versions in trees restored from images of any origin. It is kept
by all edits if no version of the image is later than its clock. An image is
accepted without that, and then the first write of a node with a later version
puts its versions out of order.
-/

namespace TierTree

namespace Timeline

variable {line : Timeline} {epoch : Epoch}

/-- From old to new, each version is later than the one before. -/
def Ascending (line : Timeline) : Prop := line.versions.Pairwise fun v w => v.since < w.since

theorem ascending_iff :
    line.Ascending ↔ (line.latest :: line.earlier).Pairwise fun v w => w.since < v.since := by
  rw [Ascending, versions, List.pairwise_reverse]

theorem dated_iff : line.Dated epoch ↔ line.Ascending ∧ line.latest.since ≤ epoch :=
  ⟨fun h => ⟨ascending_iff.mpr h.ordered, h.within⟩, fun h => ⟨ascending_iff.mp h.1, h.2⟩⟩

theorem Dated.since_le (h : line.Dated epoch) {v : Version} (hMem : v ∈ line.versions) :
    v.since ≤ epoch := by
  rcases List.mem_cons.mp (mem_versions_iff.mp hMem) with rfl | hOlder
  · exact h.within
  · have hBefore := (List.pairwise_cons.mp h.ordered).1 v hOlder
    exact UInt64.le_trans (UInt64.le_of_lt hBefore) h.within

theorem ofVersions?_eq_none (h : ¬ line.Ascending) : ofVersions? line.versions = none := by
  cases hMade : ofVersions? line.versions with
  | none => rfl
  | some made => exact absurd (of_ofVersions? hMade).2 h

/-- A write keeps the order just where no version is later than its epoch. -/
theorem ascending_write_iff (h : line.Ascending) (state : Option Node) :
    (line.write epoch state).Ascending ↔ line.latest.since ≤ epoch := by
  constructor
  · intro hWritten
    unfold write at hWritten
    split at hWritten
    next hSame => exact UInt64.le_of_eq hSame
    next =>
      have hBelow := (List.pairwise_cons.mp (ascending_iff.mp hWritten)).1 line.latest
        List.mem_cons_self
      exact UInt64.le_of_lt hBelow
  · exact fun hWithin => (dated_iff.mp (write_dated (dated_iff.mpr ⟨h, hWithin⟩) state)).1

end Timeline

/-- Steps in order that end in an error have one among them that raises it. -/
theorem exists_of_foldlM_error {ε α β : Type} {step : β → α → Except ε β} {steps : List α}
    {b : β} {e : ε} (h : steps.foldlM step b = .error e) :
    ∃ a ∈ steps, ∃ earlier, step earlier a = .error e := by
  induction steps generalizing b with
  | nil => cases h
  | cons a rest ih =>
      rw [List.foldlM_cons] at h
      cases hFirst : step b a with
      | error f =>
          rw [hFirst] at h
          cases h
          exact ⟨a, List.mem_cons_self, b, hFirst⟩
      | ok next =>
          rw [hFirst] at h
          obtain ⟨c, hMem, hRaised⟩ := ih h
          exact ⟨c, List.mem_cons_of_mem _ hMem, hRaised⟩

/-- No version of an image is later than its clock. -/
def Image.UpToDate (image : Image) : Prop :=
  ∀ r ∈ image.nodes, ∀ v ∈ r.versions, v.since ≤ image.epoch

instance (image : Image) : Decidable image.UpToDate :=
  inferInstanceAs (Decidable (∀ r ∈ image.nodes, ∀ v ∈ r.versions, v.since ≤ image.epoch))

namespace Tree

/-- The versions of every node are in order, and none is later than the clock. -/
def Dated (t : Tree) : Prop :=
  ∀ id line, t.timelines.get? id = some line → line.Dated t.epoch

section Keeps
variable {t later added : Tree} {id parent : NodeId} {n : Node}

/-- What is new in a tree is in order, and the clock goes on. -/
theorem Dated.of_new (h : t.Dated) (hEpoch : t.epoch ≤ later.epoch)
    (hNew : ∀ id line, later.timelines.get? id = some line →
      line.Dated t.epoch ∨ t.timelines.get? id = some line) : later.Dated := by
  intro id line hLine
  rcases hNew id line hLine with hDated | hOld
  · exact hDated.mono hEpoch
  · exact (h id line hOld).mono hEpoch

theorem Dated.insert (h : t.Dated) {line : Timeline} (hLine : line.Dated t.epoch) (next : NodeId) :
    ({ t with timelines := t.timelines.insert id line, nextId := next } : Tree).Dated := by
  refine h.of_new (UInt64.le_refl _) fun j line' hFound => ?_
  rw [SortedMap.get?_insert] at hFound
  split at hFound
  next =>
    cases hFound
    exact .inl hLine
  next => exact .inr hFound

theorem Dated.update (h : t.Dated) (id : NodeId) (change : Node → Node) :
    (t.update id change).Dated := by
  rcases t.update_cases id change with ⟨_, hSame⟩ | ⟨line, n, hLine, _, hWritten⟩
  · rwa [hSame]
  · rw [hWritten]
    exact h.insert (Timeline.write_dated (h id line hLine) _) t.nextId

theorem Dated.addChild (h : t.Dated) (hAdd : t.addChild parent n = .ok (id, added)) :
    added.Dated := by
  obtain ⟨_, next, _, rfl⟩ := addChild_cases hAdd
  exact (h.insert (Timeline.start_dated t.epoch n) next).update parent _

theorem Dated.addDirectories (h : t.Dated) {names : List String}
    (hAdd : t.addDirectories parent names = .ok (id, added)) : added.Dated := by
  induction names generalizing t parent with
  | nil =>
      cases hAdd
      exact h
  | cons name rest ih =>
      obtain ⟨⟨dir, made⟩, hMade, hRest⟩ := bind_eq_ok_iff.mp hAdd
      exact ih (h.addChild hMade) hRest

theorem Dated.bury (h : t.Dated) (id : NodeId) : (t.bury id).Dated := by
  rcases t.bury_cases id with ⟨_, hSame⟩ | ⟨line, hLine, ⟨_, hErased⟩ | ⟨_, hWritten⟩⟩
  · rwa [hSame]
  · rw [hErased]
    refine h.of_new (UInt64.le_refl _) fun j line' hFound => ?_
    rw [SortedMap.get?_erase] at hFound
    split at hFound
    · cases hFound
    · exact .inr hFound
  · rw [hWritten]
    exact h.insert (Timeline.write_dated (h id line hLine) none) t.nextId

theorem Dated.foldl_bury (h : t.Dated) (ids : List NodeId) : (ids.foldl Tree.bury t).Dated := by
  induction ids generalizing t with
  | nil => exact h
  | cons id rest ih => exact ih (h.bury id)

theorem Dated.prune (h : t.Dated) : t.prune.Dated := by
  refine h.of_new (UInt64.le_refl _) fun id line hFound => ?_
  rw [get?_prune] at hFound
  obtain ⟨old, hOld, hPruned⟩ := Option.bind_eq_some_iff.mp hFound
  split at hPruned
  · cases hPruned
  · cases hPruned
    exact .inl (Timeline.prune_dated (h id old hOld) _)

theorem Dated.takeSnapshot (h : t.Dated) {root : NodeId} {name : String}
    (hTaken : t.takeSnapshot root name = .ok later) : later.Dated := by
  obtain ⟨inherited, _, hTick⟩ := bind_eq_ok_iff.mp hTaken
  obtain ⟨next, hNext, hShelved⟩ := bind_eq_ok_iff.mp hTick
  cases hShelved
  exact h.of_new (UInt64.le_of_lt (lt_of_successor hNext)) fun _ _ hOld => .inr hOld

/-- A plan for a tree of any origin keeps the order of versions. -/
theorem Dated.execute (h : t.Dated) {p : Plan} (hDone : t.execute p = .ok (id, later)) :
    later.Dated := by
  cases p with
  | mkdirs parent missing => exact h.addDirectories hDone
  | createFile parent missing name replication =>
      obtain ⟨⟨dir, made⟩, hMade, hFile⟩ := bind_eq_ok_iff.mp hDone
      exact (h.addDirectories hMade).addChild hFile
  | delete parent name target =>
      obtain ⟨removed, hRemoved, hRest⟩ := bind_eq_ok_iff.mp hDone
      obtain ⟨doomed, _, hBuried⟩ := bind_eq_ok_iff.mp hRemoved
      cases hRest
      cases hBuried
      exact (h.update parent _).foldl_bury doomed
  | setPolicy target policy =>
      cases hDone
      exact h.update _ _
  | createSnapshot root name =>
      obtain ⟨taken, hTaken, hRest⟩ := bind_eq_ok_iff.mp hDone
      cases hRest
      exact h.takeSnapshot hTaken
  | deleteSnapshot root name =>
      cases hDone
      have hRemoved : ({ t with shelf := t.shelf.remove id name } : Tree).Dated := h
      exact hRemoved.prune

theorem Dated.attempt (h : t.Dated) {e : Edit} (hDone : t.attempt e = .ok later) :
    later.Dated := by
  unfold Tree.attempt at hDone
  split at hDone
  next id applied hApplied =>
    cases hDone
    obtain ⟨p, _, hExecuted⟩ := apply_eq_ok_iff.mp hApplied
    exact h.execute hExecuted
  next =>
    cases hDone
    exact h
  next => cases hDone

theorem Dated.run (h : t.Dated) {edits : List Edit} (hRun : t.run edits = .ok later) :
    later.Dated :=
  foldlM_keeps (fun _ _ _ hKeeps hDone => Dated.attempt hKeeps hDone) hRun h

end Keeps

section Restored
variable {image : Image} {t : Tree} {id : NodeId} {line : Timeline}

theorem restoreNode_error {next : NodeId} {timelines : SortedMap NodeId Timeline} {r : NodeRecord}
    (h : restoreNode next timelines r = .error (.badVersions id)) :
    r.id = id ∧ Timeline.ofVersions? r.versions = none := by
  unfold restoreNode at h
  split at h
  · split at h
    next hNone =>
      cases h
      exact ⟨rfl, hNone⟩
    next =>
      split at h <;> cases h
  · cases h

/-- An image is refused for the versions of a node only where these are none or
out of order. -/
theorem of_badVersions (h : ofImage image = .error (.badVersions id)) :
    ∃ r ∈ image.nodes, r.id = id ∧ Timeline.ofVersions? r.versions = none := by
  unfold ofImage at h
  cases hNodes : image.nodes.foldlM (restoreNode image.nextId) .empty with
  | error f =>
      rw [hNodes] at h
      cases h
      obtain ⟨r, hMem, timelines, hRaised⟩ := exists_of_foldlM_error hNodes
      exact ⟨r, hMem, restoreNode_error hRaised⟩
  | ok timelines =>
      simp only [hNodes, bind, Except.bind] at h
      split at h
      next =>
        split at h
        next f hSnapshots =>
          cases h
          obtain ⟨s, -, shelf, hRaised⟩ := exists_of_foldlM_error hSnapshots
          unfold restoreSnapshot at hRaised
          split at hRaised <;> cases hRaised
        next => cases h
      next => cases h

/-- Nodes with their versions in order, and numbers below the next one. -/
def Orderly (next : NodeId) (timelines : SortedMap NodeId Timeline) : Prop :=
  ∀ id line, timelines.get? id = some line → line.Ascending ∧ id < next

theorem Orderly.restoreNode {next : NodeId} {timelines later : SortedMap NodeId Timeline}
    {r : NodeRecord} (h : Orderly next timelines)
    (hDone : Tree.restoreNode next timelines r = .ok later) : Orderly next later := by
  obtain ⟨hNumber, -, made, hMade, rfl⟩ := restoreNode_eq_ok_iff.mp hDone
  intro j found hFound
  rw [SortedMap.get?_insert] at hFound
  split at hFound
  next hSame =>
    cases hFound
    obtain ⟨hVersions, hOrder⟩ := Timeline.of_ofVersions? hMade
    exact ⟨by rwa [Timeline.Ascending, hVersions], hSame ▸ hNumber⟩
  next => exact h j found hFound

theorem orderly_of_ofImage (h : ofImage image = .ok t) : Orderly t.nextId t.timelines := by
  obtain ⟨hNodes, -, -, -, -, hNext⟩ := of_ofImage h
  rw [hNext]
  exact foldlM_keeps (fun _ _ _ hKeeps hDone => Orderly.restoreNode hKeeps hDone) hNodes
    fun _ _ hNone => by cases hNone

/-- A tree with one node out of order has an image that is refused for it. -/
theorem ofImage_badVersions (hLine : t.timelines.get? id = some line) (hOrder : ¬ line.Ascending)
    (hNumber : id < t.nextId) (hOthers : Orderly t.nextId (t.timelines.erase id)) :
    ofImage t.toImage = .error (.badVersions id) := by
  obtain ⟨before, after, hEntries⟩ := List.append_of_mem (SortedMap.mem_entries_iff.mpr hLine)
  have hAscending := t.timelines.ascending
  rw [hEntries] at hAscending
  have hEach : ∀ e ∈ before, e.1 < t.nextId ∧ e.2.Dated 18446744073709551615 := by
    intro e hMem
    have hBelow : e.1 < id := (List.pairwise_append.mp hAscending).2.2 e hMem _ List.mem_cons_self
    have hOther : e.1 ≠ id := by
      intro hSame
      rw [hSame] at hBelow
      exact KeyOrder.irrefl id hBelow
    have hFound : (t.timelines.erase id).get? e.1 = some e.2 := by
      rw [SortedMap.get?_erase, if_neg hOther]
      exact SortedMap.mem_entries_iff.mp (hEntries ▸ List.mem_append_left _ hMem)
    obtain ⟨hInOrder, hBelowNext⟩ := hOthers e.1 e.2 hFound
    refine ⟨hBelowNext, Timeline.dated_iff.mpr ⟨hInOrder, ?_⟩⟩
    exact UInt64.le_iff_toNat_le.mpr (Nat.le_of_lt_succ (UInt64.toNat_lt_size _))
  obtain ⟨restored, hRestored, -⟩ := @restoreNodes_ok t.nextId _ before .empty
    (List.pairwise_append.mp hAscending).1 hEach
  have hNode : restoreNode t.nextId restored ⟨id, line.versions⟩ = .error (.badVersions id) := by
    rw [restoreNode, if_pos hNumber, Timeline.ofVersions?_eq_none hOrder]
  have hNodes : t.toImage.nodes.foldlM (restoreNode t.nextId) .empty =
      .error (.badVersions id) := by
    have hRest : ((⟨id, line.versions⟩ : NodeRecord) ::
        after.map fun e => ⟨e.1, e.2.versions⟩).foldlM (restoreNode t.nextId) restored =
          .error (.badVersions id) := by
      rw [List.foldlM_cons, hNode]
      rfl
    rw [toImage, hEntries, List.map_append, List.foldlM_append, hRestored]
    exact hRest
  rw [ofImage, show t.toImage.nextId = t.nextId from rfl, hNodes]
  rfl

/-- A policy that is set on a node is written at the clock. -/
theorem run_setPolicy {path : String} {names : List String} {n : Node}
    (hPath : liveComponents path = .ok names) (way : (t.view .live).Leads .root names id)
    (hLine : t.timelines.get? id = some line) (hState : line.current = some n)
    (policy : PolicyId) :
    t.run [.setPolicy path policy] = .ok { t with
      timelines := t.timelines.insert id
        (line.write t.epoch (some { n with policy := policy })) } := by
  have hNode : t.liveNode path names = .ok id := by
    rw [liveNode, descend_of_leads way]
    rfl
  have hPlan : t.plan (.setPolicy path policy) = .ok (.setPolicy id policy) := by
    rw [plan, planSetPolicy, hPath]
    simp only [bind, Except.bind, hNode]
    rfl
  have hApply : t.apply (.setPolicy path policy) = .ok (id, { t with
      timelines := t.timelines.insert id
        (line.write t.epoch (some { n with policy := policy })) }) := by
    refine apply_eq_ok_iff.mpr ⟨_, hPlan, ?_⟩
    simp [execute, update, hLine, hState]
  simp only [run, List.foldlM_cons, List.foldlM_nil, attempt, hApply]
  rfl

/-- Where the order of versions is kept, of all images that are accepted. If no
version is later than the clock, all edits keep the order, and the image of a
tree that they lead to is never refused for it. If the live state of a node is
later than the clock, setting its policy breaks the order, and the image
is refused. -/
theorem order_of_versions (h : ofImage image = .ok t) :
    (image.UpToDate → ∀ edits last, t.run edits = .ok last →
      (∀ id line, last.timelines.get? id = some line → line.Ascending) ∧
        last.toImage.UpToDate ∧ ∀ id, ofImage last.toImage ≠ .error (.badVersions id)) ∧
    ∀ path names id line n, liveComponents path = .ok names →
      (t.view .live).Leads .root names id → t.timelines.get? id = some line →
      line.current = some n → image.epoch < line.latest.since →
      ∀ policy, ∃ last written, t.run [.setPolicy path policy] = .ok last ∧
        last.timelines.get? id = some written ∧ ¬ written.Ascending ∧
        ofImage last.toImage = .error (.badVersions id) := by
  obtain ⟨-, -, -, -, hEpoch, -⟩ := of_ofImage h
  have hOrderly := orderly_of_ofImage h
  constructor
  · intro hUpToDate edits last hRun
    have hDated : t.Dated := by
      intro id line hLine
      refine Timeline.dated_iff.mpr ⟨(hOrderly id line hLine).1, ?_⟩
      rw [hEpoch]
      exact hUpToDate ⟨id, line.versions⟩ ((mem_nodes_of_ofImage h).mpr ⟨line, hLine, rfl⟩) _
        (Timeline.mem_versions_iff.mpr List.mem_cons_self)
    have hLast := hDated.run hRun
    refine ⟨fun id line hLine => (Timeline.dated_iff.mp (hLast id line hLine)).1, ?_, ?_⟩
    · rintro r hMem v hVersion
      obtain ⟨⟨id, line⟩, hEntry, rfl⟩ := List.mem_map.mp hMem
      have hLine := hLast id line (SortedMap.mem_entries_iff.mp hEntry)
      exact hLine.since_le hVersion
    · intro id hRefused
      obtain ⟨r, hMem, -, hNone⟩ := of_badVersions hRefused
      obtain ⟨⟨id, line⟩, hEntry, rfl⟩ := List.mem_map.mp hMem
      have hLine := hLast id line (SortedMap.mem_entries_iff.mp hEntry)
      rw [Timeline.ofVersions?_versions hLine] at hNone
      cases hNone
  · intro path names id line n hPath way hLine hState hLate policy
    obtain ⟨hOrder, hNumber⟩ := hOrderly id line hLine
    have hBroken : ¬ (line.write t.epoch (some { n with policy := policy })).Ascending := by
      rw [Timeline.ascending_write_iff hOrder, hEpoch]
      exact UInt64.not_le.mpr hLate
    refine ⟨_, line.write t.epoch (some { n with policy := policy }),
      run_setPolicy hPath way hLine hState policy, ?_, hBroken, ?_⟩
    · rw [SortedMap.get?_insert, if_pos rfl]
    · refine ofImage_badVersions (by rw [SortedMap.get?_insert, if_pos rfl]) hBroken hNumber ?_
      intro j other hFound
      simp only [SortedMap.get?_erase, SortedMap.get?_insert] at hFound
      split at hFound
      · cases hFound
      · exact hOrderly j other hFound

/-- The root of an image may have been written at the clock, and be written
again after that. -/
theorem order_of_versions_at_clock :
    ∃ image t last, ofImage image = .ok t ∧ image.UpToDate ∧
      t.run [.mkdirs "/a", .createSnapshot "/" "s", .mkdirs "/b"] = .ok last ∧
      (∀ line, last.timelines.get? .root = some line → line.Ascending) ∧
      ∀ id, ofImage last.toImage ≠ .error (.badVersions id) := by
  obtain ⟨image, t, last, hImage, hUpToDate, hRun⟩ : ∃ image t last, ofImage image = .ok t ∧
      image.UpToDate ∧
      t.run [.mkdirs "/a", .createSnapshot "/" "s", .mkdirs "/b"] = .ok last :=
    ⟨⟨3, ⟨2⟩, [⟨.root, [⟨0, some (.newDirectory "" none)⟩, ⟨3, some (.newDirectory "" none)⟩]⟩],
      []⟩, _, _, rfl, by decide, rfl⟩
  obtain ⟨hOrder, -, hAccepted⟩ := (order_of_versions hImage).1 hUpToDate _ last hRun
  exact ⟨image, t, last, hImage, hUpToDate, hRun, hOrder .root, hAccepted⟩

/-- A root that is later than the clock is accepted. Creating a directory puts
its versions out of order, and the image of the tree is refused. -/
theorem later_root_put_out_of_order :
    ∃ image t last line, ofImage image = .ok t ∧ t.run [.mkdirs "/a"] = .ok last ∧
      last.timelines.get? .root = some line ∧ line.versions.map (·.since) = [1, 0] ∧
      ¬ line.Ascending ∧ ofImage last.toImage = .error (.badVersions .root) :=
  ⟨⟨0, ⟨2⟩, [⟨.root, [⟨1, some (.newDirectory "" none)⟩]⟩], []⟩, _, _, _, rfl, rfl, rfl, rfl,
    by unfold Timeline.Ascending; decide, rfl⟩

end Restored

end Tree

end TierTree
