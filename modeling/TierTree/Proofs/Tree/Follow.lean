import TierTree.Proofs.Tree.Sound
import TierTree.Tree.Status

/-!
Following paths. Inside one layer a path leads where the entries of the
directories lead, and two layers that see the same nodes are followed alike.
-/

namespace TierTree

/-- What was found in one layer, seen through another. -/
def Resolved.through (layer : Layer) : Resolved → Resolved
  | .node id _ n => .node id layer n
  | .snapshotDir dir => .snapshotDir dir

/-- The same refusal for another path. -/
def TreeError.relocate (path : String) : TreeError → TreeError
  | .notFound _ => .notFound path
  | .notADirectory _ => .notADirectory path
  | e => e

namespace Tree

variable {t u : Tree} {path : String} {layer : Layer}

/-- One step of following a path inside a layer. -/
theorem follow_cons {component : String} (plain : component ≠ Path.snapshotDir ∨ layer ≠ .live)
    (id : NodeId) (n : Node) (rest : List String) :
    t.follow path id layer n (component :: rest) =
      match n.children? with
      | none => .error (.notADirectory path)
      | some children =>
          match children.get? component with
          | none => .error (.notFound path)
          | some child =>
              match t.view layer child with
              | none => .error (.notFound path)
              | some below => t.follow path child layer below rest := by
  have hPlain : ¬ (component = Path.snapshotDir ∧ layer = .live) :=
    fun special => plain.elim (· special.1) (· special.2)
  rw [follow.eq_def]
  simp only [if_neg hPlain]
  rfl

/-- What is followed to its end goes through an entry first. -/
theorem entry_of_follow {component : String} {id : NodeId} {n : Node} {rest : List String}
    {found : Resolved} (plain : component ≠ Path.snapshotDir ∨ layer ≠ .live)
    (h : t.follow path id layer n (component :: rest) = .ok found) :
    ∃ child cn, n.child? component = some child ∧ t.view layer child = some cn ∧
      t.follow path child layer cn rest = .ok found := by
  rw [follow_cons plain] at h
  split at h
  · cases h
  next children hChildren =>
    split at h
    · cases h
    next child hChild =>
      split at h
      · cases h
      next cn hSeen =>
        exact ⟨child, cn, Node.child?_eq_some_iff.mpr ⟨_, hChildren, hChild⟩, hSeen, h⟩

/-- Entering a snapshot of a live directory. -/
theorem follow_snapshot {id : NodeId} {n frozen : Node} {s : Snapshot} {rest : List String}
    (hDirectory : n.isDirectory = true) (held : t.shelf.get? id s.name = some s)
    (seen : t.view s.layer id = some frozen) :
    t.follow path id .live n (Path.snapshotDir :: s.name :: rest) =
      t.follow path id s.layer frozen rest := by
  have hSeen : t.node? id s.layer = some frozen := seen
  rw [follow, if_pos ⟨rfl, rfl⟩, if_pos hDirectory]
  simp only [held, hSeen]

variable (path) in
/-- A way through the entries of a layer is followed to its end. -/
theorem follow_leads (h : (t.view layer).Hierarchy) {id dest : NodeId} {n : Node}
    {names : List String} (plain : Path.snapshotDir ∉ names ∨ layer ≠ .live)
    (seen : t.view layer id = some n) (way : (t.view layer).Leads id names dest)
    (more : List String) :
    ∃ dn, t.view layer dest = some dn ∧
      t.follow path id layer n (names ++ more) = t.follow path dest layer dn more := by
  induction way generalizing n with
  | here => exact ⟨n, seen, rfl⟩
  | @into id child dest n' name rest seen' entry further ih =>
      rw [seen, Option.some.injEq] at seen'
      subst seen'
      obtain ⟨children, hChildren, hChild⟩ := Node.child?_eq_some_iff.mp entry
      obtain ⟨_, cn, hSeen, _⟩ := h.down seen entry
      have hFirst : name ≠ Path.snapshotDir ∨ layer ≠ .live := by
        refine plain.imp_left fun hPlain => ?_
        rintro rfl
        exact hPlain (List.mem_cons_self ..)
      have hRest : Path.snapshotDir ∉ rest ∨ layer ≠ .live :=
        plain.imp_left fun hPlain hMem => hPlain (List.mem_cons_of_mem _ hMem)
      obtain ⟨dn, hDest, hFollow⟩ := ih hRest hSeen
      refine ⟨dn, hDest, ?_⟩
      rw [List.cons_append, follow_cons hFirst]
      simp only [hChildren, hChild, hSeen]
      exact hFollow

/-- A path followed inside a layer ends at a node on a way from where it
began. -/
theorem below_of_follow {id dest : NodeId} {n dn : Node} {names : List String} {found : Layer}
    (plain : Path.snapshotDir ∉ names ∨ layer ≠ .live) (seen : t.view layer id = some n)
    (h : t.follow path id layer n names = .ok (.node dest found dn)) :
    found = layer ∧ (t.view layer).Leads id names dest ∧ t.view layer dest = some dn := by
  induction names generalizing id n with
  | nil =>
      simp only [follow, Except.ok.injEq, Resolved.node.injEq] at h
      obtain ⟨rfl, rfl, rfl⟩ := h
      exact ⟨rfl, .here _, seen⟩
  | cons component rest ih =>
      have hFirst : component ≠ Path.snapshotDir ∨ layer ≠ .live :=
        plain.imp_left fun hPlain => (List.ne_of_not_mem_cons hPlain).symm
      have hPlain : Path.snapshotDir ∉ rest ∨ layer ≠ .live :=
        plain.imp_left List.not_mem_of_not_mem_cons
      obtain ⟨child, cn, hEntry, hSeen, hRest⟩ := entry_of_follow hFirst h
      obtain ⟨hFound, way, hDest⟩ := ih hPlain hSeen hRest
      exact ⟨hFound, .into seen hEntry way, hDest⟩

/-- Behind `.snapshot` a path goes on below the directory of a snapshot that is
held, in what the snapshot shows. -/
theorem snapshot_of_follow {id dest : NodeId} {n dn : Node} {rest : List String} {found : Layer}
    (h : t.follow path id .live n (Path.snapshotDir :: rest) = .ok (.node dest found dn)) :
    ∃ s below, rest = s.name :: below ∧ s ∈ t.shelf.toList ∧ s.root = id ∧ found = s.layer ∧
      (t.view s.layer).Leads id below dest ∧ t.view s.layer dest = some dn := by
  rw [follow.eq_def] at h
  simp only [true_and, if_true] at h
  split at h
  next hDirectory =>
    split at h
    · cases h
    next name below =>
      split at h
      · cases h
      next s hHeld =>
        split at h
        · cases h
        next frozen hFrozen =>
          obtain ⟨rfl, rfl⟩ := Shelf.key_of_get? hHeld
          obtain ⟨hFound, way, hDest⟩ := below_of_follow (.inr (by simp [Snapshot.layer])) hFrozen h
          exact ⟨s, below, rfl, Shelf.mem_toList_iff.mpr hHeld, rfl, hFound, way, hDest⟩
  · cases h

/-- A path that leads to a node of the live tree goes through entries only. -/
theorem leads_of_follow {id dest : NodeId} {n dn : Node} {names : List String}
    (seen : t.view .live id = some n)
    (h : t.follow path id .live n names = .ok (.node dest .live dn)) :
    (t.view .live).Leads id names dest ∧ t.view .live dest = some dn ∧
      Path.snapshotDir ∉ names := by
  induction names generalizing id n with
  | nil =>
      simp only [follow, Except.ok.injEq, Resolved.node.injEq] at h
      obtain ⟨rfl, -, rfl⟩ := h
      exact ⟨.here _, seen, by simp⟩
  | cons component rest ih =>
      by_cases hSpecial : component = Path.snapshotDir
      · subst hSpecial
        obtain ⟨s, _, _, _, _, hLayer, _⟩ := snapshot_of_follow h
        cases hLayer
      · obtain ⟨child, cn, hEntry, hSeen, hRest⟩ := entry_of_follow (.inl hSpecial) h
        obtain ⟨way, hDest, hPlain⟩ := ih hSeen hRest
        exact ⟨.into seen hEntry way, hDest, by simp [hPlain, Ne.symm hSpecial]⟩

/-- Two layers that see the same nodes are followed alike. -/
theorem follow_congr {other : Layer} {path' : String} {names : List String}
    (hSame : t.view layer = u.view other) (plain : Path.snapshotDir ∉ names) (id : NodeId)
    (n : Node) :
    t.follow path id layer n names =
      ((u.follow path' id other n names).map (.through layer)).mapError
        (TreeError.relocate path) := by
  induction names generalizing id n with
  | nil => rfl
  | cons component rest ih =>
      obtain ⟨hFirst, hRest⟩ := List.ne_and_not_mem_of_not_mem_cons plain
      rw [follow_cons (.inl hFirst.symm), follow_cons (.inl hFirst.symm), hSame]
      cases n.children? with
      | none => rfl
      | some children =>
          simp only
          cases children.get? component with
          | none => rfl
          | some child =>
              simp only
              cases u.view other child with
              | none => rfl
              | some below => exact ih hRest child below

/-- Inside a layer a path does not lead to the list of snapshots. -/
theorem follow_ne_snapshotDir {id dir : NodeId} {n : Node} {names : List String}
    (plain : Path.snapshotDir ∉ names ∨ layer ≠ .live) :
    t.follow path id layer n names ≠ .ok (.snapshotDir dir) := by
  induction names generalizing id n with
  | nil => simp [follow]
  | cons component rest ih =>
      intro h
      have hFirst : component ≠ Path.snapshotDir ∨ layer ≠ .live :=
        plain.imp_left fun hPlain => (List.ne_of_not_mem_cons hPlain).symm
      obtain ⟨child, cn, _, _, hRest⟩ := entry_of_follow hFirst h
      exact ih (plain.imp_left List.not_mem_of_not_mem_cons) hRest

/-- A path leads to the list of snapshots only with `.snapshot` as its last
component, behind a directory. -/
theorem snapshotDir_of_follow {id dir : NodeId} {n : Node} {names : List String}
    (seen : t.view .live id = some n)
    (h : t.follow path id .live n names = .ok (.snapshotDir dir)) :
    ∃ front dn, names = front ++ [Path.snapshotDir] ∧ Path.snapshotDir ∉ front ∧
      (t.view .live).Leads id front dir ∧ t.view .live dir = some dn ∧ dn.isDirectory = true := by
  induction names generalizing id n with
  | nil => simp [follow] at h
  | cons component rest ih =>
      by_cases hSpecial : component = Path.snapshotDir
      · subst hSpecial
        rw [follow.eq_def] at h
        simp only [true_and, if_true] at h
        split at h
        next hDirectory =>
          split at h
          · cases h
            exact ⟨[], n, rfl, List.not_mem_nil, .here _, seen, hDirectory⟩
          · split at h
            · cases h
            split at h
            · cases h
            -- behind the name of a snapshot the path stays in what it shows
            · exact absurd h (follow_ne_snapshotDir (.inr (by simp [Snapshot.layer])))
        · cases h
      · obtain ⟨child, cn, entry, hSeen, hRest⟩ := entry_of_follow (.inl hSpecial) h
        obtain ⟨front, dn, rfl, outside, way, hEnd⟩ := ih hSeen hRest
        exact ⟨component :: front, dn, rfl, by simp [outside, Ne.symm hSpecial],
          .into seen entry way, hEnd⟩

/-- Resolving a path follows its components from the root. -/
theorem resolve_eq_follow {names : List String} {r : Node} (hSplit : Path.split path = .ok names)
    (hRoot : t.view .live .root = some r) :
    t.resolve path = t.follow path .root .live r names := by
  have hNode : t.node? .root .live = some r := hRoot
  simp only [resolve, hSplit, hNode]

end Tree

end TierTree
