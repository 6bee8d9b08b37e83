import TierTree.Proofs.Path
import TierTree.Proofs.Tree.Inheritance

/-!
Where paths lead. A path of a sound tree leads through entries of the live tree
to a node or to the list of snapshots of a directory, or it enters one snapshot
and goes on through entries there. Nothing else resolves.
-/

namespace TierTree.Tree

/-- The names of a path lead to what is found. -/
inductive Finds (t : Tree) : List String → Resolved → Prop
  | live {names : List String} {id : NodeId} {n : Node} (outside : Path.snapshotDir ∉ names)
      (way : (t.view .live).Leads .root names id) (seen : t.view .live id = some n) :
      Finds t names (.node id .live n)
  | frozen {dir below : List String} {s : Snapshot} {id : NodeId} {n : Node}
      (outside : Path.snapshotDir ∉ dir) (held : s ∈ t.shelf.toList)
      (entrance : (t.view .live).Leads .root dir s.root)
      (way : (t.view s.layer).Leads s.root below id) (seen : t.view s.layer id = some n) :
      Finds t (dir ++ Path.snapshotDir :: s.name :: below) (.node id s.layer n)
  | snapshots {dir : List String} {id : NodeId} {n : Node} (outside : Path.snapshotDir ∉ dir)
      (way : (t.view .live).Leads .root dir id) (seen : t.view .live id = some n)
      (directory : n.isDirectory = true) :
      Finds t (dir ++ [Path.snapshotDir]) (.snapshotDir id)

variable {t : Tree} {path : String} {names : List String} {found : Resolved} {id child : NodeId}
  {n cn : Node} {layer : Layer} {name : String}

theorem finds_of_resolve (hSound : t.Sound) (hSplit : Path.split path = .ok names)
    (h : t.resolve path = .ok found) : t.Finds names found := by
  obtain ⟨r, hRoot, _⟩ := hSound.live.root
  rw [resolve_eq_follow hSplit hRoot] at h
  cases found with
  | snapshotDir dir =>
      obtain ⟨front, dn, rfl, outside, way, seen, hDirectory⟩ := snapshotDir_of_follow hRoot h
      exact .snapshots outside way seen hDirectory
  | node id layer n =>
      by_cases hLive : layer = .live
      · subst hLive
        obtain ⟨way, seen, outside⟩ := leads_of_follow hRoot h
        exact .live outside way seen
      · obtain ⟨dir, s, below, rfl, outside, held, entrance, rfl, way, seen⟩ :=
          frozen_of_follow hRoot hLive h
        exact .frozen outside held entrance way seen

theorem resolve_of_finds (hSound : t.Sound) (hSplit : Path.split path = .ok names)
    (h : t.Finds names found) : t.resolve path = .ok found := by
  obtain ⟨r, hRoot, _⟩ := hSound.live.root
  rw [resolve_eq_follow hSplit hRoot]
  cases h with
  | @live names id n outside way seen =>
      obtain ⟨dn, hSeen, hFollow⟩ := follow_leads path hSound.live (.inl outside) hRoot way []
      rw [seen, Option.some.injEq] at hSeen
      rw [List.append_nil] at hFollow
      rw [hFollow, hSeen]
      rfl
  | @frozen dir below s id n outside held entrance way seen =>
      obtain ⟨d, hDir, hFollow⟩ := follow_leads path hSound.live (.inl outside) hRoot entrance
        (Path.snapshotDir :: s.name :: below)
      obtain ⟨m, hHeld, hDirectory⟩ := hSound.held s held
      rw [hDir, Option.some.injEq] at hHeld
      obtain ⟨top, hTop, _⟩ := hSound.shown s held
      obtain ⟨dn, hSeen, hBelow⟩ := follow_leads path (hSound.frozen s held)
        (.inr (by simp [Snapshot.layer])) hTop way []
      rw [seen, Option.some.injEq] at hSeen
      rw [List.append_nil] at hBelow
      rw [hFollow, follow_snapshot (hHeld ▸ hDirectory) (Shelf.mem_toList_iff.mp held) hTop,
        hBelow, hSeen]
      rfl
  | @snapshots dir id n outside way seen directory =>
      obtain ⟨dn, hSeen, hFollow⟩ := follow_leads path hSound.live (.inl outside) hRoot way
        [Path.snapshotDir]
      rw [seen, Option.some.injEq] at hSeen
      rw [hFollow, follow, if_pos ⟨rfl, rfl⟩, if_pos (hSeen ▸ directory)]

/-- A path of names that lead to a node of the live tree resolves to it. -/
theorem resolve_of_leads (hSound : t.Sound) (hSplit : Path.split path = .ok names)
    (way : (t.view .live).Leads .root names id) : ∃ n, t.resolve path = .ok (.node id .live n) := by
  obtain ⟨n, seen⟩ := hSound.live.seen_of_leads way hSound.live.root_isSome
  refine ⟨n, resolve_of_finds hSound hSplit (.live (fun hMem => ?_) way seen)⟩
  have hValid := hSound.live.valid_of_leads way _ hMem
  exact (Path.isValidName_iff.mp hValid).2 rfl

/-- Paths resolve exactly to what their names lead to. -/
theorem resolve_eq_ok_iff (hSound : t.Sound) (hSplit : Path.split path = .ok names) :
    t.resolve path = .ok found ↔ t.Finds names found :=
  ⟨finds_of_resolve hSound hSplit, resolve_of_finds hSound hSplit⟩

/-- The policy in force at the end of a path to a live node is the nearest one on
the path. -/
theorem policyOf_live (hSound : t.Sound) (hSplit : Path.split path = .ok names)
    (h : t.resolve path = .ok (.node id .live n)) :
    t.effectivePolicyOf path = .ok ((t.view .live).nearest .root .unspecified names) := by
  obtain ⟨r, hRoot, _⟩ := hSound.live.root
  have hFollow := h
  rw [resolve_eq_follow hSplit hRoot] at hFollow
  obtain ⟨way, seen, _⟩ := leads_of_follow hRoot hFollow
  exact (findsNearest_of_leads hSound.live h way seen).answer

/-- A path that enters a snapshot leads to a node that a snapshot shows, or
nowhere. -/
theorem frozen_of_resolve {dir below : List String} (hSound : t.Sound)
    (hSplit : Path.split path = .ok (dir ++ Path.snapshotDir :: name :: below))
    (h : t.resolve path = .ok found) :
    ∃ s ∈ t.shelf.toList, ∃ id n, found = .node id s.layer n := by
  generalize hNames : dir ++ Path.snapshotDir :: name :: below = names at hSplit
  cases finds_of_resolve hSound hSplit h with
  | live outside =>
      exact absurd (hNames ▸ List.mem_append_right _ (List.mem_cons_self ..)) outside
  | frozen _ held => exact ⟨_, held, _, _, rfl⟩
  | @snapshots front id n outside =>
      have hFront : front = dir ++ (Path.snapshotDir :: name :: below).dropLast := by
        rw [← List.dropLast_append_of_ne_nil (List.cons_ne_nil _ _), hNames, List.dropLast_concat]
      refine absurd ?_ outside
      rw [hFront, List.dropLast_cons_of_ne_nil (List.cons_ne_nil _ _)]
      exact List.mem_append_right _ (List.mem_cons_self ..)

theorem split_of_resolve (h : t.resolve path = .ok found) :
    ∃ names, Path.split path = .ok names := by
  unfold resolve at h
  cases hSplit : Path.split path with
  | error cause => simp [hSplit] at h
  | ok names => exact ⟨names, rfl⟩

/-- A read in a snapshot is a read of the path that leads there. -/
theorem resolveInSnapshot_eq (hName : Path.isValidName name = true) (t : Tree)
    (dir subpath : String) :
    t.resolveInSnapshot dir name subpath = t.resolve (Path.inSnapshot dir name subpath) := by
  unfold resolveInSnapshot Path.inSnapshot
  rw [if_pos hName]
  cases Path.trimFront subpath.toList <;> simp only

end TierTree.Tree
