import Mathlib.Logic.Relation
import TierTree.Proofs.Tree.Frozen
import TierTree.Proofs.Tree.Retention

/-!
What deletions leave behind when no snapshot is held. A node that was written
before the last snapshot was taken leaves a mark of its deletion even after
that snapshot is gone, and the mark stays until the next time that a snapshot
is deleted. Nothing else is left behind.
-/

namespace TierTree

namespace Timeline

/-- One step in the history of a node while the clock stands at an epoch: a
node that is not kept is started, one that is kept is written, or one is
dropped because its deletion leaves no state. -/
inductive Step (epoch : Epoch) : Option Timeline → Option Timeline → Prop
  | start (n : Node) : Step epoch none (some (.start epoch n))
  | write (line : Timeline) (state : Option Node) :
      Step epoch (some line) (some (line.write epoch state))
  | drop {line : Timeline} (gone : (line.write epoch none).isGone = true) :
      Step epoch (some line) none

/-- A node kept with a state from before an epoch. -/
def Lasting (epoch : Epoch) (kept : Option Timeline) : Prop :=
  ∃ line, kept = some line ∧ ∃ v ∈ line.latest :: line.earlier, v.since < epoch ∧ v.state ≠ none

/-- A node that, if it is kept, has a single version, which is of this epoch. -/
def Recent (epoch : Epoch) (kept : Option Timeline) : Prop :=
  ∀ line, kept = some line → line.earlier = [] ∧ line.latest.since = epoch

/-- A write replaces no version from before its epoch. -/
theorem mem_write_of_lt {line : Timeline} {epoch : Epoch} {v : Version}
    (hv : v ∈ line.latest :: line.earlier) (hOld : v.since < epoch) (state : Option Node) :
    v ∈ (line.write epoch state).latest :: (line.write epoch state).earlier := by
  unfold write
  split
  next same =>
    rcases List.mem_cons.mp hv with rfl | hv
    · exact absurd (same ▸ hOld) (UInt64.lt_irrefl _)
    · exact List.mem_cons_of_mem _ hv
  next => exact List.mem_cons_of_mem _ hv

theorem Step.lasting {epoch : Epoch} {before after : Option Timeline}
    (step : Step epoch before after) (h : Lasting epoch before) : Lasting epoch after := by
  obtain ⟨line, rfl, v, hv, hOld, hState⟩ := h
  cases step with
  | write _ state => exact ⟨_, rfl, v, mem_write_of_lt hv hOld state, hOld, hState⟩
  | drop gone => exact absurd (isGone_iff.mp gone v (mem_write_of_lt hv hOld none)) hState

theorem Step.recent {epoch : Epoch} {before after : Option Timeline}
    (step : Step epoch before after) (h : Recent epoch before) : Recent epoch after := by
  rintro line rfl
  cases step with
  | start n => exact ⟨rfl, rfl⟩
  | write old state =>
      obtain ⟨hSingle, hSince⟩ := h old rfl
      simp [Timeline.write, hSince, hSingle]

theorem eq_of_versions {line : Timeline} {v : Version} (h : line.versions = [v]) :
    line = ⟨v, []⟩ := by
  have hReversed : line.latest :: line.earlier = [v] := by
    simpa [versions] using congrArg List.reverse h
  obtain ⟨rfl, hNone⟩ := List.cons.inj hReversed
  rw [← hNone]

/-- What single steps keep is kept by a history of them. -/
theorem keeps_of_steps {epoch : Epoch} {P : Option Timeline → Prop}
    (hStep : ∀ {before after}, Step epoch before after → P before → P after)
    {before after : Option Timeline} (steps : Relation.ReflTransGen (Step epoch) before after)
    (h : P before) : P after := by
  induction steps with
  | refl => exact h
  | tail _ step ih => exact hStep step ih

end Timeline

namespace Tree

open Relation (ReflTransGen)

/-- The numbers of the nodes that the live tree has. -/
def liveIds (t : Tree) : List NodeId := t.timelines.keys.filter fun id => (t.node? id .live).isSome

/-- The numbers of the nodes kept that the live tree does not have. -/
def leftBehind (t : Tree) : List NodeId :=
  t.timelines.keys.filter fun id => (t.node? id .live).isNone

/-- A tree without snapshots that keeps nothing but the live states. -/
structure Bare (t : Tree) : Prop where
  noSnapshot : t.shelf.toList = []
  single : ∀ {id line}, t.timelines.get? id = some line →
    ∃ v n, line.versions = [v] ∧ v.state = some n

/-- A node that was not written since the last snapshot was taken. -/
def Aged (t : Tree) (id : NodeId) : Prop :=
  ∃ line, t.timelines.get? id = some line ∧ line.latest.since < t.epoch

/-- What became of a tree while no snapshot was taken or deleted. -/
structure Rewrites (later t : Tree) : Prop where
  shelf : later.shelf = t.shelf
  epoch : later.epoch = t.epoch
  steps : ∀ id,
    ReflTransGen (Timeline.Step t.epoch) (t.timelines.get? id) (later.timelines.get? id)

section Rewrites

theorem Rewrites.refl (t : Tree) : t.Rewrites t := ⟨rfl, rfl, fun _ => .refl⟩

theorem Rewrites.trans {latest later t : Tree} (second : latest.Rewrites later)
    (first : later.Rewrites t) : latest.Rewrites t :=
  ⟨second.shelf.trans first.shelf, second.epoch.trans first.epoch,
    fun id => (first.steps id).trans (first.epoch ▸ second.steps id)⟩

/-- Where the versions of one node alone are changed, by a step. -/
theorem Rewrites.of_step {later t : Tree} (id : NodeId) (hShelf : later.shelf = t.shelf)
    (hEpoch : later.epoch = t.epoch)
    (hOther : ∀ j, j ≠ id → later.timelines.get? j = t.timelines.get? j)
    (step : Timeline.Step t.epoch (t.timelines.get? id) (later.timelines.get? id)) :
    later.Rewrites t := by
  refine ⟨hShelf, hEpoch, fun j => ?_⟩
  by_cases hj : j = id
  · exact hj ▸ .single step
  · rw [hOther j hj]

variable {t added : Tree} {id parent : NodeId}

theorem update_rewrites (t : Tree) (id : NodeId) (change : Node → Node) :
    (t.update id change).Rewrites t := by
  rcases t.update_cases id change with ⟨_, hSame⟩ | ⟨line, n, hLine, _, hWritten⟩
  · exact hSame.symm ▸ .refl t
  · rw [hWritten]
    refine .of_step id rfl rfl (fun j hj => ?_) ?_
    · rw [SortedMap.get?_insert, if_neg hj]
    · rw [SortedMap.get?_insert, if_pos rfl, hLine]
      exact .write line _

theorem bury_rewrites (t : Tree) (id : NodeId) : (t.bury id).Rewrites t := by
  rcases t.bury_cases id with ⟨_, hSame⟩ | ⟨line, hLine, ⟨hGone, hErased⟩ | ⟨_, hWritten⟩⟩
  · exact hSame.symm ▸ .refl t
  · rw [hErased]
    refine .of_step id rfl rfl (fun j hj => ?_) ?_
    · rw [SortedMap.get?_erase, if_neg hj]
    · rw [SortedMap.get?_erase, if_pos rfl, hLine]
      exact .drop hGone
  · rw [hWritten]
    refine .of_step id rfl rfl (fun j hj => ?_) ?_
    · rw [SortedMap.get?_insert, if_neg hj]
    · rw [SortedMap.get?_insert, if_pos rfl, hLine]
      exact .write line none

theorem foldl_bury_rewrites (t : Tree) (ids : List NodeId) : (ids.foldl bury t).Rewrites t := by
  induction ids generalizing t with
  | nil => exact .refl t
  | cons id rest ih => exact (ih (t.bury id)).trans (t.bury_rewrites id)

theorem addChild_rewrites (h : t.Kept) {n : Node} (hAdd : t.addChild parent n = .ok (id, added)) :
    added.Rewrites t := by
  obtain ⟨_, next, _, rfl⟩ := addChild_cases hAdd
  refine (update_rewrites _ _ _).trans (.of_step t.nextId rfl rfl (fun j hj => ?_) ?_)
  · rw [enter, SortedMap.get?_insert, if_neg hj]
  · rw [enter, SortedMap.get?_insert, if_pos rfl, h.fresh]
    exact .start n

theorem addDirectories_rewrites (h : t.Kept) {names : List String}
    (hAdd : t.addDirectories parent names = .ok (id, added)) :
    added.Rewrites t ∧ added.Kept := by
  induction names generalizing t parent with
  | nil =>
      cases hAdd
      exact ⟨.refl _, h⟩
  | cons name rest ih =>
      obtain ⟨⟨dir, made⟩, hMade, hRest⟩ := bind_eq_ok_iff.mp hAdd
      obtain ⟨hMore, hKept⟩ := ih (addChild_kept h hMade) hRest
      exact ⟨hMore.trans (addChild_rewrites h hMade), hKept⟩

/-- A plan that takes or deletes no snapshot only writes nodes. -/
theorem execute_rewrites (h : t.Kept) {p : Plan} (hDone : t.execute p = .ok (id, added)) :
    added.Rewrites t ∨ (∃ root name, p = .createSnapshot root name) ∨
      ∃ root name, p = .deleteSnapshot root name := by
  cases p with
  | mkdirs parent missing => exact .inl (addDirectories_rewrites h hDone).1
  | createFile parent missing name replication =>
      obtain ⟨⟨dir, made⟩, hMade, hFile⟩ := bind_eq_ok_iff.mp hDone
      obtain ⟨hMore, hKept⟩ := addDirectories_rewrites h hMade
      exact .inl ((addChild_rewrites hKept hFile).trans hMore)
  | delete parent name target =>
      obtain ⟨removed, hRemoved, hRest⟩ := bind_eq_ok_iff.mp hDone
      obtain ⟨doomed, _, hBuried⟩ := bind_eq_ok_iff.mp hRemoved
      cases hRest
      cases hBuried
      exact .inl ((foldl_bury_rewrites _ doomed).trans (update_rewrites ..))
  | setPolicy target policy =>
      cases hDone
      exact .inl (update_rewrites ..)
  | createSnapshot root name => exact .inr (.inl ⟨root, name, rfl⟩)
  | deleteSnapshot root name => exact .inr (.inr ⟨root, name, rfl⟩)

end Rewrites

section Runs
variable {t later : Tree}

/-- An edit that is carried out writes nodes, takes a snapshot, which is on the
shelf then, or deletes one. -/
theorem apply_cases (hSound : t.Sound) {e : Edit} {id : NodeId}
    (h : t.apply e = .ok (id, later)) :
    later.Rewrites t ∨ later.shelf.toList ≠ [] ∨ ∃ path name, e = .deleteSnapshot path name := by
  obtain ⟨p, hPlan, hDone⟩ := apply_eq_ok_iff.mp h
  rcases execute_rewrites hSound.kept hDone with hRewrites | ⟨root, name, rfl⟩ | ⟨root, name, rfl⟩
  · exact .inl hRewrites
  · obtain ⟨path, rfl⟩ := edit_of_plan hPlan
    obtain ⟨inherited, next, _, _, _, rfl, _⟩ := createSnapshot_spec hSound h
    refine .inr (.inl (List.ne_nil_of_mem (a := ⟨name, id, t.epoch, inherited⟩) ?_))
    rw [Shelf.mem_toList_iff, withSnapshot, Shelf.get?_insert, if_pos ⟨rfl, rfl⟩]
  · have hSuits := plan_suits hPlan
    cases e with
    | deleteSnapshot path given => exact .inr (.inr ⟨path, given, rfl⟩)
    | _ => cases hSuits

theorem new_bare : new.Bare := by
  refine ⟨rfl, fun {id line} hLine => ?_⟩
  rw [new, SortedMap.get?_insert] at hLine
  split at hLine
  · cases hLine
    exact ⟨_, _, rfl, rfl⟩
  · cases hLine

/-- Where a run of edits last came to a tree that keeps only live states: after
the edits `before`, that is at its beginning or when a snapshot was deleted. -/
structure BareAt (edits before after : List Edit) (u : Tree) : Prop where
  order : edits = before ++ after
  point : before = [] ∨ ∃ rest path name, before = rest ++ [.deleteSnapshot path name]
  reached : new.run before = .ok u
  bare : u.Bare

theorem BareAt.snoc {edits before after : List Edit} {u : Tree}
    (h : BareAt edits before after u) (e : Edit) :
    BareAt (edits ++ [e]) before (after ++ [e]) u :=
  ⟨by rw [h.order, List.append_assoc], h.point, h.reached, h.bare⟩

/-- A run that ends without a snapshot has written nodes only since it came to
a tree that keeps only live states. -/
theorem exists_bareAt {edits : List Edit} (hRun : new.run edits = .ok t)
    (hNone : t.shelf.toList = []) :
    ∃ before after u, BareAt edits before after u ∧ t.Rewrites u := by
  induction edits using List.reverseRecOn generalizing t with
  | nil =>
      cases hRun
      exact ⟨[], [], new, ⟨rfl, .inl rfl, rfl, new_bare⟩, .refl new⟩
  | append_singleton edits e ih =>
      have hWhole := hRun
      rw [run_append] at hRun
      obtain ⟨last, hBefore, hLast⟩ := bind_eq_ok_iff.mp hRun
      have hStep : last.attempt e = .ok t := by simpa [run] using hLast
      have hExtended (hMore : t.Rewrites last) :
          ∃ before after u, BareAt (edits ++ [e]) before after u ∧ t.Rewrites u := by
        obtain ⟨before, after, u, hBare, hRewrites⟩ := ih hBefore (hMore.shelf ▸ hNone)
        exact ⟨before, after ++ [e], u, hBare.snoc e, hMore.trans hRewrites⟩
      unfold attempt at hStep
      split at hStep
      next id later hApply =>
        cases hStep
        have hSound := (run_sound new_sound hBefore).1
        rcases apply_cases hSound hApply with hMore | hHeld | ⟨path, name, rfl⟩
        · exact hExtended hMore
        · exact absurd hNone hHeld
        · obtain ⟨_, rfl⟩ := deleteSnapshot_spec hSound hApply
          refine ⟨edits ++ [.deleteSnapshot path name], [], _, ⟨by simp, ?_, hWhole, hNone, ?_⟩,
            .refl _⟩
          · exact .inr ⟨edits, path, name, rfl⟩
          · exact bare_prune (t := { last with shelf := last.shelf.remove id name }) hNone
      · cases hStep
        exact hExtended (.refl t)
      · cases hStep

/-- What a node of a bare tree has become, while no snapshot was taken or
deleted: one not written since the last snapshot is kept for good, any other
one has a single version. -/
theorem Rewrites.cases {u : Tree} (h : t.Rewrites u) (hKept : u.Kept) (hBare : u.Bare)
    (id : NodeId) :
    (u.Aged id ∧ Timeline.Lasting u.epoch (t.timelines.get? id)) ∨
      (¬ u.Aged id ∧ Timeline.Recent u.epoch (t.timelines.get? id)) := by
  by_cases hAged : u.Aged id
  · refine .inl ⟨hAged, Timeline.keeps_of_steps Timeline.Step.lasting (h.steps id) ?_⟩
    obtain ⟨line, hLine, hOld⟩ := hAged
    obtain ⟨v, n, hVersions, hState⟩ := hBare.single hLine
    obtain rfl := Timeline.eq_of_versions hVersions
    exact ⟨_, hLine, v, List.mem_cons_self, hOld, hState ▸ Option.some_ne_none n⟩
  · refine .inr ⟨hAged, Timeline.keeps_of_steps Timeline.Step.recent (h.steps id) ?_⟩
    intro line hLine
    obtain ⟨v, n, hVersions, _⟩ := hBare.single hLine
    obtain rfl := Timeline.eq_of_versions hVersions
    have hNotOlder : ¬ v.since < u.epoch := fun hOld => hAged ⟨_, hLine, hOld⟩
    exact ⟨rfl, UInt64.le_antisymm (hKept.dated hLine).within (UInt64.not_lt.mp hNotOlder)⟩

theorem mem_leftBehind_iff {id : NodeId} :
    id ∈ t.leftBehind ↔ (t.timelines.get? id).isSome = true ∧ t.node? id .live = none := by
  rw [leftBehind, List.mem_filter, SortedMap.mem_keys_iff, Option.isNone_iff_eq_none]

theorem mem_liveIds_iff (hSound : t.Sound) {id : NodeId} :
    id ∈ t.liveIds ↔ (t.view .live).Below .root id := by
  rw [liveIds, List.mem_filter]
  constructor
  · rintro ⟨_, hLive⟩
    obtain ⟨n, seen⟩ := Option.isSome_iff_exists.mp hLive
    exact hSound.live.exists_leads seen
  · rintro ⟨names, way⟩
    obtain ⟨n, seen⟩ := hSound.live.seen_of_leads way hSound.live.root_isSome
    exact ⟨mem_keys_of_view seen, Option.isSome_iff_exists.mpr ⟨n, seen⟩⟩

theorem retained_eq (t : Tree) : t.retained = t.liveIds.length + t.leftBehind.length := by
  have hSplit := List.length_eq_length_filter_add (l := t.timelines.keys)
    fun id => (t.node? id .live).isSome
  rw [length_keys] at hSplit
  simpa [retained, liveIds, leftBehind, Option.not_isSome] using hSplit

theorem nodup_liveIds (t : Tree) : t.liveIds.Nodup := by
  refine List.Nodup.filter _ ?_
  refine (List.pairwise_map.mpr t.timelines.ascending).imp fun {a b} hLt => ?_
  rintro rfl
  exact KeyOrder.irrefl a hLt

/-- Of the nodes of a bare tree those are left behind that were not written since
the last snapshot and are deleted by now. -/
theorem Rewrites.mem_leftBehind_iff {u : Tree} (h : t.Rewrites u) (hSound : t.Sound)
    (hKept : u.Kept) (hBare : u.Bare) (id : NodeId) :
    id ∈ t.leftBehind ↔ u.Aged id ∧ t.node? id .live = none := by
  rw [Tree.mem_leftBehind_iff]
  refine and_congr_left fun hDead => ?_
  rcases h.cases hKept hBare id with ⟨hAged, line, hLine, _⟩ | ⟨hNew, hRecent⟩
  · simp [hAged, hLine]
  · refine iff_of_false (fun hThere => ?_) hNew
    obtain ⟨line, hLine⟩ := Option.isSome_iff_exists.mp hThere
    have hGone : line.isGone = true := by
      have hCurrent : line.latest.state = none := by
        simpa [node?, hLine, Timeline.current] using hDead
      simpa [Timeline.isGone_iff, (hRecent line hLine).1] using hCurrent
    rw [hSound.kept.present hLine] at hGone
    cases hGone

/-- As long as no snapshot has been taken, deletions leave nothing behind. -/
theorem leftBehind_of_epoch_zero {edits : List Edit} (hRun : new.run edits = .ok t)
    (hNever : t.epoch = 0) : t.leftBehind = [] := by
  have hSound := (run_sound new_sound hRun).1
  have hNone : t.shelf.toList = [] := List.eq_nil_iff_forall_not_mem.mpr fun s hs =>
    UInt64.not_lt_zero (hNever ▸ hSound.earlier s hs)
  obtain ⟨before, after, u, hBare, hRewrites⟩ := exists_bareAt hRun hNone
  have hKept := (run_sound new_sound hBare.reached).1.kept
  refine List.eq_nil_iff_forall_not_mem.mpr fun id hLeft => ?_
  obtain ⟨⟨line, _, hOld⟩, _⟩ := (hRewrites.mem_leftBehind_iff hSound hKept hBare.bare id).mp hLeft
  rw [← hRewrites.epoch, hNever] at hOld
  exact UInt64.not_lt_zero hOld

/-- What a run leaves behind that ends without a snapshot: of the nodes there
were when it last kept nothing but live states, those that were not written
since a snapshot was last taken before that, and are deleted by now. Where
there is none of these, just the root and the nodes below it are kept. -/
theorem run_leaves_behind {edits : List Edit} (hRun : new.run edits = .ok t)
    (hNone : t.shelf.toList = []) :
    t.liveIds.Nodup ∧ (∀ id, id ∈ t.liveIds ↔ (t.view .live).Below .root id) ∧
      ∃ before after u, BareAt edits before after u ∧ t.epoch = u.epoch ∧
        (∀ id, id ∈ t.leftBehind ↔ u.Aged id ∧ t.node? id .live = none) ∧
        (t.retained = t.liveIds.length ↔ ∀ id, u.Aged id → (t.node? id .live).isSome = true) := by
  have hSound := (run_sound new_sound hRun).1
  obtain ⟨before, after, u, hBare, hRewrites⟩ := exists_bareAt hRun hNone
  have hKept := (run_sound new_sound hBare.reached).1.kept
  have hLeft := hRewrites.mem_leftBehind_iff hSound hKept hBare.bare
  refine ⟨t.nodup_liveIds, fun id => mem_liveIds_iff hSound, before, after, u, hBare,
    hRewrites.epoch, hLeft, ?_⟩
  calc t.retained = t.liveIds.length
      ↔ t.leftBehind = [] := by rw [retained_eq, ← List.length_eq_zero_iff]; omega
    _ ↔ ∀ id, ¬ (u.Aged id ∧ t.node? id .live = none) := by
        rw [List.eq_nil_iff_forall_not_mem]
        exact forall_congr' fun id => not_congr (hLeft id)
    _ ↔ ∀ id, u.Aged id → (t.node? id .live).isSome = true := by
        simp only [not_and, Option.isSome_iff_ne_none, ne_eq]

/-- A file that was there when a snapshot was taken leaves a mark behind when it
is deleted after the snapshot, and one made later does not. -/
theorem run_leaves_behind_older_file :
    ∃ t before after u,
      new.run [.createFile "/f" 3, .createSnapshot "/" "s", .deleteSnapshot "/" "s",
        .createFile "/g" 3, .delete "/f" false, .delete "/g" false] = .ok t ∧
      BareAt [.createFile "/f" 3, .createSnapshot "/" "s", .deleteSnapshot "/" "s",
        .createFile "/g" 3, .delete "/f" false, .delete "/g" false] before after u ∧
      t.shelf.toList = [] ∧ t.leftBehind = [⟨2⟩] ∧ u.Aged ⟨2⟩ ∧ ¬ u.Aged ⟨3⟩ := by
  obtain ⟨t, hRun, hNone, hLeft, hDead⟩ : ∃ t,
      new.run [.createFile "/f" 3, .createSnapshot "/" "s", .deleteSnapshot "/" "s",
        .createFile "/g" 3, .delete "/f" false, .delete "/g" false] = .ok t ∧
      t.shelf.toList = [] ∧ t.leftBehind = [⟨2⟩] ∧ t.node? ⟨3⟩ .live = none :=
    ⟨_, rfl, rfl, rfl, rfl⟩
  obtain ⟨_, _, before, after, u, hBare, _, hExact, _⟩ := run_leaves_behind hRun hNone
  refine ⟨t, before, after, u, hRun, hBare, hNone, hLeft, ((hExact ⟨2⟩).mp ?_).1, fun hAged => ?_⟩
  · simp [hLeft]
  · have hMarked := (hExact ⟨3⟩).mpr ⟨hAged, hDead⟩
    simp [hLeft] at hMarked

/-- Not all of the nodes that are kept without a snapshot need be live. -/
theorem dead_node_retained :
    ∃ t, new.run [.createFile "/f" 3, .createSnapshot "/" "s", .deleteSnapshot "/" "s",
        .delete "/f" false] = .ok t ∧
      t.shelf.toList = [] ∧ t.liveIds = [.root] ∧ t.leftBehind = [⟨2⟩] ∧
      t.retained ≠ t.liveIds.length :=
  ⟨_, rfl, rfl, rfl, rfl, by decide +kernel⟩

end Runs

end Tree

end TierTree
