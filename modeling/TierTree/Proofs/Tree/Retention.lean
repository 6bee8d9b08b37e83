import TierTree.Proofs.Tree.Invariant

/-!
What is kept when a snapshot is deleted. A version stays if it is the newest of
its node or in force at the epoch of a snapshot that is left, and a node goes if
none of the versions that would stay holds a state.
-/

namespace TierTree

namespace Timeline

/-- A version in force at an epoch: it is there by then, and no other one up to
then is later. -/
def InForce (line : Timeline) (epoch : Epoch) (v : Version) : Prop :=
  v.since ≤ epoch ∧ ∀ w ∈ line.versions, w.since ≤ epoch → w.since ≤ v.since

/-- A version that the live tree or one of the snapshots on a shelf sees. -/
def Visible (line : Timeline) (shelf : Shelf) (v : Version) : Prop :=
  line.versions.getLast? = some v ∨ ∃ s ∈ shelf.toList, line.InForce s.epoch v

instance (line : Timeline) (epoch : Epoch) (v : Version) : Decidable (line.InForce epoch v) :=
  inferInstanceAs (Decidable (_ ∧ ∀ w ∈ line.versions, _))

instance (line : Timeline) (shelf : Shelf) : DecidablePred (line.Visible shelf) := fun v =>
  inferInstanceAs (Decidable (_ ∨ ∃ s ∈ shelf.toList, line.InForce s.epoch v))

/-- The versions of a node that can be seen, from old to new. -/
def visible (line : Timeline) (shelf : Shelf) : List Version :=
  line.versions.filter (line.Visible shelf ·)

/-- A version that is in force among others at one of the epochs before
`untilEpoch`. -/
def SeenAmong (versions : List Version) (epochs : List Epoch) (untilEpoch : Epoch) (v : Version) :
    Prop :=
  ∃ e ∈ epochs, e < untilEpoch ∧ v.since ≤ e ∧ ∀ w ∈ versions, w.since ≤ e → w.since ≤ v.since

instance (versions : List Version) (epochs : List Epoch) (untilEpoch : Epoch) :
    DecidablePred (SeenAmong versions epochs untilEpoch) := fun _ =>
  inferInstanceAs (Decidable (∃ e ∈ epochs, _ ∧ _ ∧ ∀ w ∈ versions, _))

section Seen
variable {epochs : List Epoch} {untilEpoch : Epoch} {v x : Version} {older : List Version}
  (hLater : ∀ w ∈ older, w.since < v.since)
include hLater

/-- A version hides the older ones from its epoch on. -/
theorem seenAmong_cons_of_mem (hBefore : v.since < untilEpoch) (hx : x ∈ older) :
    SeenAmong (v :: older) epochs untilEpoch x ↔ SeenAmong older epochs v.since x := by
  constructor
  · rintro ⟨e, he, _, hReached, hLast⟩
    have hHidden : ¬ v.since ≤ e := fun hSeen =>
      UInt64.not_le.mpr (hLater x hx) (hLast v List.mem_cons_self hSeen)
    exact ⟨e, he, UInt64.not_le.mp hHidden, hReached,
      fun w hw => hLast w (List.mem_cons_of_mem _ hw)⟩
  · rintro ⟨e, he, hEarly, hReached, hLast⟩
    refine ⟨e, he, UInt64.lt_trans hEarly hBefore, hReached, fun w hw hSeen => ?_⟩
    rcases List.mem_cons.mp hw with rfl | hw
    · exact absurd hSeen (UInt64.not_le.mpr hEarly)
    · exact hLast w hw hSeen

theorem seenAmong_cons_self :
    SeenAmong (v :: older) epochs untilEpoch v ↔
      (epochs.any fun e => v.since ≤ e ∧ e < untilEpoch) = true := by
  simp only [List.any_eq_true, decide_eq_true_eq]
  constructor
  · rintro ⟨e, he, hEarly, hReached, _⟩
    exact ⟨e, he, hReached, hEarly⟩
  · rintro ⟨e, he, hReached, hEarly⟩
    refine ⟨e, he, hEarly, hReached, fun w hw _ => ?_⟩
    rcases List.mem_cons.mp hw with rfl | hw
    · exact UInt64.le_refl _
    · exact UInt64.le_of_lt (hLater w hw)

end Seen

/-- Of versions from new to old, all before `untilEpoch`, those are kept for some
epochs that are in force at one of them. -/
theorem seen_eq_filter {epochs : List Epoch} {untilEpoch : Epoch} {versions : List Version}
    (hOrdered : versions.Pairwise (fun v w => w.since < v.since))
    (hBefore : ∀ v ∈ versions, v.since < untilEpoch) :
    seen epochs untilEpoch versions =
      versions.filter (SeenAmong versions epochs untilEpoch ·) := by
  induction versions generalizing untilEpoch with
  | nil => rfl
  | cons v older ih =>
      obtain ⟨hLater, hRest⟩ := List.pairwise_cons.mp hOrdered
      have hOlder : older.filter (SeenAmong (v :: older) epochs untilEpoch ·) =
          older.filter (SeenAmong older epochs v.since ·) :=
        List.filter_congr fun x hx => decide_eq_decide.mpr
          (seenAmong_cons_of_mem hLater (hBefore v List.mem_cons_self) hx)
      rw [List.filter_cons, hOlder, seen, ih hRest hLater]
      simp only [decide_eq_true_eq, seenAmong_cons_self hLater]

/-- An earlier version can be seen before the newest one only. -/
theorem visible_earlier {line : Timeline} {epoch : Epoch} (h : line.Dated epoch) (shelf : Shelf)
    {v : Version} (hv : v ∈ line.earlier) :
    line.Visible shelf v ↔ SeenAmong line.earlier shelf.epochs line.latest.since v := by
  have hOlder : v.since < line.latest.since := (List.pairwise_cons.mp h.ordered).1 v hv
  have hOther : line.latest ≠ v := by
    rintro rfl
    exact UInt64.lt_irrefl _ hOlder
  have hNewest : line.versions.getLast? = some line.latest := by simp [versions]
  simp only [Visible, hNewest, Option.some.injEq, hOther, false_or, InForce, mem_versions_iff]
  constructor
  · rintro ⟨s, hs, hReached, hLast⟩
    have hHidden : ¬ line.latest.since ≤ s.epoch := fun hSeen =>
      UInt64.not_le.mpr hOlder (hLast _ List.mem_cons_self hSeen)
    exact ⟨s.epoch, Shelf.mem_epochs_iff.mpr ⟨s, hs, rfl⟩, UInt64.not_le.mp hHidden, hReached,
      fun w hw => hLast w (List.mem_cons_of_mem _ hw)⟩
  · rintro ⟨e, he, hEarly, hReached, hLast⟩
    obtain ⟨s, hs, rfl⟩ := Shelf.mem_epochs_iff.mp he
    refine ⟨s, hs, hReached, fun w hw hSeen => ?_⟩
    rcases List.mem_cons.mp hw with rfl | hw
    · exact absurd hSeen (UInt64.not_le.mpr hEarly)
    · exact hLast w hw hSeen

/-- Pruning for the snapshots on a shelf keeps the versions that can be seen. -/
theorem versions_prune {line : Timeline} {epoch : Epoch} (h : line.Dated epoch) (shelf : Shelf) :
    (line.prune shelf.epochs).versions = line.visible shelf := by
  obtain ⟨hLater, hRest⟩ := List.pairwise_cons.mp h.ordered
  have hNewest : line.Visible shelf line.latest := .inl (by simp [versions])
  have hEarlier : seen shelf.epochs line.latest.since line.earlier =
      line.earlier.filter (line.Visible shelf ·) := by
    rw [seen_eq_filter hRest hLater]
    exact List.filter_congr fun v hv => decide_eq_decide.mpr (visible_earlier h shelf hv).symm
  calc (line.prune shelf.epochs).versions
      = (line.latest :: line.earlier.filter (line.Visible shelf ·)).reverse := by
        rw [← hEarlier]
        rfl
    _ = ((line.latest :: line.earlier).filter (line.Visible shelf ·)).reverse := by
        rw [List.filter_cons_of_pos (by simpa using hNewest)]
    _ = line.visible shelf := (List.filter_reverse ..).symm

theorem isGone_eq_false_iff {line : Timeline} :
    line.isGone = false ↔ (line.versions.any (·.state.isSome)) = true := by
  rw [isGone, ← Bool.not_eq_true, List.all_eq_true, List.any_eq_true]
  simp [Option.isSome_iff_ne_none]

/-- For no epoch at all no earlier version is kept. -/
theorem seen_nil (untilEpoch : Epoch) (versions : List Version) :
    seen [] untilEpoch versions = [] := by
  induction versions generalizing untilEpoch with
  | nil => rfl
  | cons v older ih => simpa [seen] using ih v.since

theorem versions_prune_nil (line : Timeline) : (line.prune []).versions = [line.latest] := by
  simp [versions, prune, seen_nil]

end Timeline

namespace Tree

/-- `later` keeps of `t` what can be seen with the snapshots of `later`, and
nothing else. -/
structure KeepsVisible (t later : Tree) : Prop where
  /-- The versions of a node are those that can be seen, if one of these holds a
  state. -/
  versions : ∀ id, (later.timelines.get? id).map (·.versions) =
    ((t.timelines.get? id).map (·.visible later.shelf)).filter (·.any (·.state.isSome))
  live : ∀ id, later.node? id .live = t.node? id .live
  frozen : ∀ s ∈ later.shelf.toList, ∀ id, later.node? id s.layer = t.node? id s.layer
  /-- Without a snapshot, a node has nothing but its live state. -/
  bare : later.shelf.toList = [] → ∀ id line, later.timelines.get? id = some line →
    ∃ v n, line.versions = [v] ∧ v.state = some n

theorem versions_get?_prune {t : Tree} (h : t.Kept) (id : NodeId) :
    (t.prune.timelines.get? id).map (·.versions) =
      ((t.timelines.get? id).map (·.visible t.shelf)).filter (·.any (·.state.isSome)) := by
  rw [get?_prune]
  cases hLine : t.timelines.get? id with
  | none => rfl
  | some line =>
      have hVersions := Timeline.versions_prune (h.dated hLine) t.shelf
      cases hGone : (line.prune t.shelf.epochs).isGone with
      | true =>
          have hNone : ¬ ((line.visible t.shelf).any (·.state.isSome)) = true := by
            rw [← hVersions, ← Timeline.isGone_eq_false_iff, hGone]
            exact Bool.noConfusion
          simp [hGone, Option.filter, hNone]
      | false =>
          have hSome : ((line.visible t.shelf).any (·.state.isSome)) = true := by
            rw [← hVersions]
            exact Timeline.isGone_eq_false_iff.mp hGone
          simp [hGone, Option.filter, hSome, hVersions]

/-- Pruning without a snapshot leaves each node its live state. -/
theorem bare_prune {t : Tree} (h : t.shelf.toList = []) {id : NodeId} {line : Timeline}
    (hLine : t.prune.timelines.get? id = some line) :
    ∃ v n, line.versions = [v] ∧ v.state = some n := by
  rw [get?_prune] at hLine
  obtain ⟨old, _, hKept⟩ := Option.bind_eq_some_iff.mp hLine
  have hEpochs : t.shelf.epochs = [] := by
    refine List.eq_nil_iff_forall_not_mem.mpr fun e he => ?_
    obtain ⟨s, hs, _⟩ := Shelf.mem_epochs_iff.mp he
    rw [h] at hs
    cases hs
  rw [hEpochs] at hKept
  split at hKept
  · cases hKept
  next hStays =>
    cases hKept
    have hState := Timeline.isGone_eq_false_iff.mp (Bool.eq_false_iff.mpr hStays)
    rw [Timeline.versions_prune_nil] at hState
    obtain ⟨n, hn⟩ := Option.isSome_iff_exists.mp (by simpa using hState)
    exact ⟨old.latest, n, Timeline.versions_prune_nil old, hn⟩

variable {t later : Tree} {root : NodeId}

/-- What deleting a snapshot comes to. -/
theorem deleteSnapshot_spec (hSound : t.Sound) {path name : String}
    (hDelete : t.apply (.deleteSnapshot path name) = .ok (root, later)) :
    t.shelf.contains root name = true ∧
      later = { t with shelf := t.shelf.remove root name }.prune := by
  obtain ⟨p, hPlan, hDone⟩ := apply_eq_ok_iff.mp hDelete
  obtain ⟨_, dir, _, rfl, hThere, _⟩ :=
    planDeleteSnapshot_spec hSound.live (mapError_eq_ok_iff.mp hPlan)
  simp only [execute, Except.ok.injEq, Prod.mk.injEq] at hDone
  obtain ⟨rfl, rfl⟩ := hDone
  exact ⟨hThere, rfl⟩

/-- Deleting a snapshot takes this one off the shelf and keeps just what can be
seen without it. -/
theorem deleteSnapshot_keeps_visible {edits : List Edit} {path name : String}
    (hRun : new.run edits = .ok t)
    (hDelete : t.apply (.deleteSnapshot path name) = .ok (root, later)) :
    (∃ s ∈ t.shelf.toList, s.root = root ∧ s.name = name) ∧
      (∀ s, s ∈ later.shelf.toList ↔ s ∈ t.shelf.toList ∧ ¬ (s.root = root ∧ s.name = name)) ∧
      t.KeepsVisible later := by
  have hSound := (run_sound new_sound hRun).1
  obtain ⟨hThere, rfl⟩ := deleteSnapshot_spec hSound hDelete
  obtain ⟨s, hFound⟩ := Option.isSome_iff_exists.mp hThere
  obtain ⟨hRoot, hName⟩ := Shelf.key_of_get? hFound
  have hOn : s ∈ t.shelf.toList := Shelf.mem_toList_iff.mpr (by rw [hRoot, hName, hFound])
  have hSucceeds := (deleteSnapshot_sound hSound root name).2
  refine ⟨⟨s, hOn, hRoot, hName⟩, fun s => Shelf.mem_toList_remove, ?_⟩
  constructor
  case versions =>
    exact versions_get?_prune ⟨hSound.kept.dated, hSound.kept.present, hSound.kept.numbered⟩
  case live =>
    exact fun id => congrFun ((view_prune _).trans (view_congr rfl _)) id
  case frozen =>
    intro s hs id
    have hPast := hSucceeds.past hs (hSound.earlier s (Shelf.mem_toList_remove.mp hs).1)
    exact congrFun (show view _ s.layer = t.view s.layer by rw [view_layer, view_layer, hPast]) id
  case bare =>
    exact fun hNone id line hLine =>
      bare_prune (t := { t with shelf := t.shelf.remove root name }) hNone hLine

/-- Of two snapshots the first is deleted, after the file was changed behind it
and deleted behind the second: the version between them stays, with the mark
that the file is gone. -/
theorem deleteSnapshot_keeps_visible_between :
    ∃ t later, new.run [.createFile "/f" 3, .createSnapshot "/" "a", .setPolicy "/f" ⟨4⟩,
        .createSnapshot "/" "b", .delete "/f" false] = .ok t ∧
      t.apply (.deleteSnapshot "/" "a") = .ok (⟨1⟩, later) ∧ t.KeepsVisible later ∧
      (t.timelines.get? ⟨2⟩).map (·.versions.map fun v => (v.since, v.state.map (·.policy))) =
        some [(0, some ⟨0⟩), (1, some ⟨4⟩), (2, none)] ∧
      (later.timelines.get? ⟨2⟩).map (·.versions.map fun v => (v.since, v.state.map (·.policy))) =
        some [(1, some ⟨4⟩), (2, none)] := by
  obtain ⟨t, hRun, later, hDelete, hBefore, hAfter⟩ : ∃ t, new.run [.createFile "/f" 3,
        .createSnapshot "/" "a", .setPolicy "/f" ⟨4⟩, .createSnapshot "/" "b",
        .delete "/f" false] = .ok t ∧
      ∃ later, t.apply (.deleteSnapshot "/" "a") = .ok (⟨1⟩, later) ∧
      (t.timelines.get? ⟨2⟩).map (·.versions.map fun v => (v.since, v.state.map (·.policy))) =
        some [(0, some ⟨0⟩), (1, some ⟨4⟩), (2, none)] ∧
      (later.timelines.get? ⟨2⟩).map (·.versions.map fun v => (v.since, v.state.map (·.policy))) =
        some [(1, some ⟨4⟩), (2, none)] :=
    ⟨_, rfl, _, rfl, rfl, rfl⟩
  exact ⟨t, later, hRun, hDelete, (deleteSnapshot_keeps_visible hRun hDelete).2.2, hBefore, hAfter⟩

end Tree

end TierTree
