import Mathlib.Data.List.Induction
import Mathlib.Data.List.Infix
import TierTree.Proofs.Path
import TierTree.Proofs.Tree.Capacity
import TierTree.Proofs.Tree.Effect

/-!
Which edits are made. An edit is refused just where its path, the layout of the
live tree or the snapshots speak against it; the order in which the checks are
made, and where a walk breaks off, do not matter. What is not refused is made
unless a counter is used up, which takes paths of an enormous length in all.
-/

namespace TierTree

section Outcome
variable {ε α β : Type} {e : ε} {call : Except ε α} {condition : Prop} [Decidable condition]

theorem exists_ok_bind_iff {second : α → Except ε β} :
    (∃ b, (call >>= second) = .ok b) ↔ ∃ a, call = .ok a ∧ ∃ b, second a = .ok b := by
  simp only [bind_eq_ok_iff]
  exact exists_comm.trans (by simp only [exists_and_left])

theorem exists_ok_if_iff :
    (∃ a, (if condition then call else .error e) = .ok a) ↔ condition ∧ ∃ a, call = .ok a := by
  by_cases h : condition <;> simp [h]

theorem exists_ok_unless_iff :
    (∃ a, (if condition then .error e else call) = .ok a) ↔ ¬ condition ∧ ∃ a, call = .ok a := by
  by_cases h : condition <;> simp [h]

end Outcome

namespace Node

theorem shape_eq_directory_iff {n : Node} : n.shape = .directory ↔ n.isDirectory = true := by
  obtain ⟨name, parent, policy, content⟩ := n
  cases content <;> simp [shape, isDirectory, children?]

theorem childIds_eq_nil_iff {n : Node} : n.childIds = [] ↔ ∀ name, n.child? name = none := by
  rw [List.eq_nil_iff_forall_not_mem]
  simp only [mem_childIds_iff, Option.eq_none_iff_forall_ne_some, not_exists]
  exact forall_comm

end Node

namespace Layout

/-- A file stands at a place. -/
def FileAt (layout : Layout) (place : List String) : Prop :=
  ∃ o, layout place = some o ∧ o.shape ≠ .directory

/-- A directory stands at a place. -/
def DirectoryAt (layout : Layout) (place : List String) (id : NodeId) : Prop :=
  ∃ o, layout place = some o ∧ o.id = id ∧ o.shape = .directory

/-- How many of the places on the way to a place, itself included, are vacant. -/
def vacancies (layout : Layout) (names : List String) : Nat :=
  names.inits.countP fun place => (layout place).isNone

end Layout

namespace View

variable {v : View} {id : NodeId}

/-- No node on the way that `names` take is a file, the last one apart. -/
def OpenWay (v : View) (id : NodeId) (names : List String) : Prop :=
  ∀ front dest dn, front <+: names → front ≠ names → v.Leads id front dest → v dest = some dn →
    dn.isDirectory = true

theorem openWay_nil : v.OpenWay id [] := fun _ _ _ hPrefix hProper =>
  absurd (List.prefix_nil.mp hPrefix) hProper

theorem openWay_cons_iff {n : Node} {name : String} {rest : List String}
    (seen : v id = some n) :
    v.OpenWay id (name :: rest) ↔
      n.isDirectory = true ∧ ∀ child, n.child? name = some child → v.OpenWay child rest := by
  constructor
  · intro hOpen
    refine ⟨hOpen [] id n List.nil_prefix (List.cons_ne_nil _ _).symm (.here id) seen,
      fun child entry front dest dn hPrefix hProper way => ?_⟩
    exact hOpen (name :: front) dest dn (List.cons_prefix_cons.mpr ⟨rfl, hPrefix⟩)
      (fun hSame => hProper (List.cons.inj hSame).2) (.into seen entry way)
  · rintro ⟨hKind, hBelow⟩ front dest dn hPrefix hProper way hDest
    cases way with
    | here =>
        rw [seen, Option.some.injEq] at hDest
        exact hDest ▸ hKind
    | into seen' entry further =>
        obtain ⟨rfl, hRest⟩ := List.cons_prefix_cons.mp hPrefix
        rw [seen, Option.some.injEq] at seen'
        subst seen'
        exact hBelow _ entry _ dest dn hRest (fun hSame => hProper (hSame ▸ rfl)) further hDest

end View

namespace Edit

/-- How many nodes an edit makes, where `names` are the names in its path. -/
def births (layout : Layout) (names : List String) : Edit → Nat
  | .mkdirs _ | .createFile _ _ => layout.vacancies names
  | _ => 0

/-- How often the clock ticks for an edit. -/
def ticks : Edit → Nat
  | .createSnapshot _ _ => 1
  | _ => 0

end Edit

namespace Tree

/-- What an edit asks of the tree, where `names` are the names in its path. -/
def Admits (t : Tree) (names : List String) : Edit → Prop
  | .mkdirs _ => ∀ place, place <+: names → ¬ t.layout.FileAt place
  | .createFile _ replication =>
      names ≠ [] ∧ 1 ≤ replication ∧
        (∀ place, place <+: names → place ≠ names → ¬ t.layout.FileAt place) ∧
        t.layout names = none
  | .delete _ recursive =>
      names ≠ [] ∧ t.layout names ≠ none ∧
        ((∀ name, t.layout (names ++ [name]) = none) ∨ recursive = true) ∧
        ∀ place o, names <+: place → t.layout place = some o →
          ∀ s ∈ t.shelf.toList, s.root ≠ o.id
  | .setPolicy _ _ => t.layout names ≠ none
  | .createSnapshot _ name =>
      ∃ root, t.layout.DirectoryAt names root ∧ Path.isValidName name = true ∧
        ¬ ∃ s ∈ t.shelf.toList, s.root = root ∧ s.name = name
  | .deleteSnapshot _ name =>
      ∃ root, t.layout.DirectoryAt names root ∧
        ∃ s ∈ t.shelf.toList, s.root = root ∧ s.name = name

/-- The path of an edit is well formed and does not enter snapshots, and the tree
has what the edit asks for. -/
def Admissible (t : Tree) (e : Edit) : Prop :=
  ∃ names, Path.split e.path = .ok names ∧ Path.snapshotDir ∉ names ∧ t.Admits names e

/-- The counters go far enough for an edit: there is a number for each node that
it makes, and an epoch after the one that it ends. -/
def HasRoom (t : Tree) (e : Edit) : Prop :=
  ∀ names, Path.split e.path = .ok names →
    t.nextId.raw.toNat + e.births t.layout names < UInt64.size ∧
      t.epoch.toNat + e.ticks < UInt64.size

variable {t : Tree} {path : String} {names : List String}

section Lookup

theorem liveComponents_eq_ok_iff :
    liveComponents path = .ok names ↔ Path.split path = .ok names ∧ Path.snapshotDir ∉ names := by
  unfold liveComponents
  cases Path.split path with
  | error cause => simp
  | ok components =>
      have hEnters : Path.entersSnapshots components = true ↔ Path.snapshotDir ∈ components := by
        simp [Path.entersSnapshots]
      by_cases hPlain : Path.snapshotDir ∈ components
      · rw [← hEnters] at hPlain
        simp only [hPlain, if_true, reduceCtorEq, Except.ok.injEq, false_iff]
        rintro ⟨rfl, hOutside⟩
        exact hOutside (hEnters.mp hPlain)
      · simp only [mt hEnters.mp hPlain, Bool.false_eq_true, if_false, Except.ok.injEq]
        exact ⟨fun hSame => ⟨hSame, hSame ▸ hPlain⟩, And.left⟩

theorem exists_ok_live_iff {α : Type} {call : List String → Except TreeError α} :
    (∃ a, (liveComponents path >>= call) = .ok a) ↔
      ∃ names, Path.split path = .ok names ∧ Path.snapshotDir ∉ names ∧
        ∃ a, call names = .ok a := by
  simp only [exists_ok_bind_iff, liveComponents_eq_ok_iff, and_assoc]

theorem contains_iff {root : NodeId} {name : String} :
    t.shelf.contains root name = true ↔ ∃ s ∈ t.shelf.toList, s.root = root ∧ s.name = name := by
  rw [Shelf.contains, Option.isSome_iff_exists]
  constructor
  · rintro ⟨s, held⟩
    obtain ⟨rfl, rfl⟩ := Shelf.key_of_get? held
    exact ⟨s, Shelf.mem_toList_iff.mpr held, rfl, rfl⟩
  · rintro ⟨s, held, rfl, rfl⟩
    exact ⟨s, Shelf.mem_toList_iff.mp held⟩

theorem fileAt_iff {place : List String} :
    t.layout.FileAt place ↔ ∃ id n, (t.view .live).Leads .root place id ∧
      t.view .live id = some n ∧ n.isDirectory = false := by
  constructor
  · rintro ⟨o, standing, hShape⟩
    obtain ⟨way, n, seen, hSame⟩ := View.layout_eq_some_iff.mp standing
    have hKind : n.shape ≠ .directory := by rwa [← hSame] at hShape
    exact ⟨o.id, n, way, seen, by simpa using mt Node.shape_eq_directory_iff.mpr hKind⟩
  · rintro ⟨id, n, way, seen, hFile⟩
    refine ⟨n.occupant id, View.layout_of_leads way seen, fun hShape => ?_⟩
    rw [Node.shape_eq_directory_iff.mp hShape] at hFile
    cases hFile

theorem directoryAt_iff {place : List String} {id : NodeId} :
    t.layout.DirectoryAt place id ↔ (t.view .live).Leads .root place id ∧
      ∃ n, t.view .live id = some n ∧ n.isDirectory = true := by
  constructor
  · rintro ⟨o, standing, rfl, hShape⟩
    obtain ⟨way, n, seen, hSame⟩ := View.layout_eq_some_iff.mp standing
    have hKind : n.shape = .directory := by rwa [← hSame] at hShape
    exact ⟨way, n, seen, Node.shape_eq_directory_iff.mp hKind⟩
  · rintro ⟨way, n, seen, hKind⟩
    exact ⟨n.occupant id, View.layout_of_leads way seen, rfl,
      Node.shape_eq_directory_iff.mpr hKind⟩

theorem layout_ne_none_iff (h : (t.view .live).Hierarchy) :
    t.layout names ≠ none ↔ ∃ id, (t.view .live).Leads .root names id := by
  constructor
  · intro hThere
    obtain ⟨o, standing⟩ := Option.ne_none_iff_exists'.mp hThere
    exact ⟨o.id, (View.layout_eq_some_iff.mp standing).1⟩
  · rintro ⟨id, way⟩
    exact layout_ne_none h way (List.prefix_refl names)

theorem liveNode_eq_ok_iff (h : (t.view .live).Hierarchy) {id : NodeId} :
    t.liveNode path names = .ok id ↔ (t.view .live).Leads .root names id := by
  refine ⟨fun found => (liveNode_spec h found).1, fun way => ?_⟩
  rw [liveNode, descend_of_leads way]
  rfl

theorem liveDirectory_eq_ok_iff (h : (t.view .live).Hierarchy) {id : NodeId} :
    t.liveDirectory path names = .ok id ↔ t.layout.DirectoryAt names id := by
  rw [directoryAt_iff]
  refine ⟨liveDirectory_spec h, fun ⟨way, n, seen, hKind⟩ => ?_⟩
  rw [liveDirectory, (liveNode_eq_ok_iff h).mpr way]
  refine bind_eq_ok_iff.mpr ⟨id, rfl, bind_eq_ok_iff.mpr ⟨n, live_eq_ok_iff.mpr seen, ?_⟩⟩
  rw [if_pos hKind]

variable (path) in
/-- A descent breaks off only at a file that is not its end. -/
theorem descend_ok_iff (h : (t.view .live).Hierarchy) {id : NodeId} {n : Node}
    (seen : t.view .live id = some n) :
    (∃ found, t.descend path id names = .ok found) ↔ (t.view .live).OpenWay id names := by
  induction names generalizing id n with
  | nil => exact iff_of_true ⟨_, rfl⟩ View.openWay_nil
  | cons name rest ih =>
      rw [View.openWay_cons_iff seen, descend_cons seen]
      cases hChildren : n.children? with
      | none => simp [Node.isDirectory, hChildren]
      | some children =>
          have hEntry : n.child? name = children.get? name := by simp [Node.child?, hChildren]
          have hKind : n.isDirectory = true := by simp [Node.isDirectory, hChildren]
          cases hChild : children.get? name with
          | none =>
              simp only [hEntry, hChild, hKind]
              exact iff_of_true ⟨_, rfl⟩ ⟨trivial, fun _ entry => by cases entry⟩
          | some child =>
              rw [hChild] at hEntry
              obtain ⟨_, cn, hSeen, _⟩ := h.down seen hEntry
              simp only [hEntry, hChild, hKind, true_and, Option.some.injEq, forall_eq']
              exact ih hSeen

variable (path) in
/-- A descent stops at a directory just where no file is in the way. -/
theorem descend_to_directory_iff (h : (t.view .live).Hierarchy) :
    (∃ parent missing pn, t.descend path .root names = .ok (parent, missing) ∧
      t.view .live parent = some pn ∧ pn.isDirectory = true) ↔
    ∀ place, place <+: names → ¬ t.layout.FileAt place := by
  obtain ⟨r, hRoot, _⟩ := h.root
  constructor
  · rintro ⟨parent, missing, pn, descent, hParent, hKind⟩ place hPrefix hFile
    obtain ⟨id, n, way, seen, hNot⟩ := fileAt_iff.mp hFile
    have hDirectory : n.isDirectory = true := by
      by_cases hWhole : place = names
      · rw [hWhole] at way
        cases (descend_of_leads way).symm.trans descent
        rw [hParent, Option.some.injEq] at seen
        exact seen ▸ hKind
      · exact (descend_ok_iff path h hRoot).mp ⟨_, descent⟩ place id n hPrefix hWhole way seen
    rw [hDirectory] at hNot
    cases hNot
  · intro hFree
    have hDirectory : ∀ front dest dn, front <+: names → (t.view .live).Leads .root front dest →
        t.view .live dest = some dn → dn.isDirectory = true := by
      intro front dest dn hPrefix way seen
      by_contra hFile
      exact hFree front hPrefix (fileAt_iff.mpr ⟨dest, dn, way, seen, by simpa using hFile⟩)
    obtain ⟨⟨parent, missing⟩, descent⟩ := (descend_ok_iff path h hRoot).mpr
      fun front dest dn hPrefix _ => hDirectory front dest dn hPrefix
    obtain ⟨passed, pn, rfl, way, hParent, _⟩ := descend_spec h hRoot descent
    exact ⟨parent, missing, pn, descent, hParent,
      hDirectory passed parent pn (List.prefix_append ..) way hParent⟩

/-- Behind the place of a node those places are vacant that it has no entry
for. -/
theorem vacant_behind_iff (h : (t.view .live).Hierarchy) {id : NodeId} {n : Node} {name : String}
    (way : (t.view .live).Leads .root names id) (seen : t.view .live id = some n) :
    t.layout (names ++ [name]) = none ↔ n.child? name = none := by
  rw [← not_iff_not, ← ne_eq, ← ne_eq, layout_ne_none_iff h, Option.ne_none_iff_exists']
  constructor
  · rintro ⟨child, wayChild⟩
    obtain ⟨mid, wayMid, wayLast⟩ := wayChild.split
    cases way.deterministic wayMid
    cases wayLast with
    | into seen' entry _ =>
        rw [seen, Option.some.injEq] at seen'
        exact ⟨_, seen' ▸ entry⟩
  · rintro ⟨child, entry⟩
    exact ⟨child, way.snoc seen entry⟩

/-- Whether a place is vacant is seen from where the descent before it stops. -/
theorem vacant_iff_of_descend (h : (t.view .live).Hierarchy) {parent : NodeId} {pn : Node}
    {name : String} {missing : List String}
    (descent : t.descend path .root names = .ok (parent, missing))
    (hParent : t.view .live parent = some pn) :
    t.layout (names ++ [name]) = none ↔ ¬ (missing = [] ∧ (pn.child? name).isSome = true) := by
  obtain ⟨r, hRoot, _⟩ := h.root
  obtain ⟨passed, _, hNames, way, _⟩ := descend_spec h hRoot descent
  by_cases hWhole : missing = []
  · rw [hWhole, List.append_nil] at hNames
    rw [hNames, vacant_behind_iff h way hParent]
    simp [hWhole]
  · refine iff_of_true ?_ fun hFound => hWhole hFound.1
    by_contra hThere
    obtain ⟨id, wayId⟩ := (layout_ne_none_iff h).mp hThere
    obtain ⟨mid, wayMid, _⟩ := wayId.split
    cases (descend_of_leads wayMid).symm.trans descent
    exact hWhole rfl

/-- The names of a path outside the snapshots may all be names of new entries. -/
theorem newNames_of_split {new : List String} (hSplit : Path.split path = .ok names)
    (outside : Path.snapshotDir ∉ names) (hNew : new ⊆ names) : newNames new = .ok new := by
  refine newNames_eq_ok_iff.mpr ⟨rfl, fun name hName => ?_⟩
  refine Path.isValidName_of_split hSplit (hNew hName) ?_
  rintro rfl
  exact outside (hNew hName)

end Lookup

section Plans

theorem planMkdirs_ok_iff (h : (t.view .live).Hierarchy) :
    (∃ p, t.planMkdirs path = .ok p) ↔ t.Admissible (.mkdirs path) := by
  obtain ⟨r, hRoot, _⟩ := h.root
  refine exists_ok_live_iff.trans (exists_congr fun names => and_congr_right fun hSplit =>
    and_congr_right fun outside => ?_)
  refine Iff.trans ?_ (descend_to_directory_iff path h)
  simp only [exists_ok_bind_iff, exists_ok_if_iff, live_eq_ok_iff, Prod.exists]
  refine exists_congr fun parent => exists_congr fun missing => ?_
  constructor
  · rintro ⟨descent, pn, hParent, hKind, _⟩
    exact ⟨pn, descent, hParent, hKind⟩
  · rintro ⟨pn, descent, hParent, hKind⟩
    obtain ⟨passed, _, rfl, _⟩ := descend_spec h hRoot descent
    exact ⟨descent, pn, hParent, hKind, missing,
      newNames_of_split hSplit outside (List.subset_append_right ..), _, rfl⟩

/-- A file is planned just if it is admissible: the way down ends at a directory
where the next name is unused, be it a missing directory or the file itself. -/
theorem planCreateFile_ok_iff (h : (t.view .live).Hierarchy) {replication : UInt16} :
    (∃ p, t.planCreateFile path replication = .ok p) ↔
      t.Admissible (.createFile path replication) := by
  obtain ⟨r, hRoot, _⟩ := h.root
  refine exists_ok_live_iff.trans (exists_congr fun names => and_congr_right fun hSplit =>
    and_congr_right fun outside => ?_)
  rcases List.eq_nil_or_concat' names with rfl | ⟨dirs, name, rfl⟩
  · simp [Admits]
  have hPositive : 1 ≤ replication ↔ replication ≠ 0 := by
    rw [UInt16.le_iff_toNat_le, ne_eq, ← UInt16.toNat_inj]
    exact Nat.one_le_iff_ne_zero
  have hBefore : (∀ place, place <+: dirs ++ [name] → place ≠ dirs ++ [name] →
      ¬ t.layout.FileAt place) ↔ ∀ place, place <+: dirs → ¬ t.layout.FileAt place := by
    refine forall_congr' fun place => ⟨fun hFree hPrefix => ?_, fun hFree hPrefix hProper => ?_⟩
    · refine hFree (hPrefix.trans (List.prefix_append ..)) ?_
      rintro rfl
      exact absurd hPrefix.length_le (by simp)
    · exact hFree ((List.prefix_concat_iff.mp hPrefix).resolve_left hProper)
  simp only [Admits, hPositive, hBefore, List.getLast?_concat, List.dropLast_concat,
    exists_ok_bind_iff, exists_ok_unless_iff, live_eq_ok_iff, Prod.exists,
    ← descend_to_directory_iff path h]
  constructor
  · rintro ⟨hReplication, parent, missing, descent, pn, hParent, hKind, hUnused, _⟩
    exact ⟨by simp, hReplication, ⟨parent, missing, pn, descent, hParent, by simpa using hKind⟩,
      (vacant_iff_of_descend h descent hParent).mpr hUnused⟩
  · rintro ⟨_, hReplication, ⟨parent, missing, pn, descent, hParent, hKind⟩, hVacant⟩
    obtain ⟨passed, _, hDirs, _⟩ := descend_spec h hRoot descent
    have hNew : missing ⊆ dirs ++ [name] := by
      rw [hDirs]
      exact List.Subset.trans (List.subset_append_right ..) (List.subset_append_left ..)
    exact ⟨hReplication, parent, missing, descent, pn, hParent, by simpa using hKind,
      (vacant_iff_of_descend h descent hParent).mp hVacant,
      missing, newNames_of_split hSplit outside hNew,
      [name], newNames_of_split hSplit outside (List.subset_append_right ..), _, rfl⟩

/-- A node has no entries just where no place right behind its own is taken. -/
theorem childIds_eq_nil_iff_of_leads (h : (t.view .live).Hierarchy) {id : NodeId} {n : Node}
    (way : (t.view .live).Leads .root names id) (seen : t.view .live id = some n) :
    n.childIds = [] ↔ ∀ name, t.layout (names ++ [name]) = none := by
  rw [Node.childIds_eq_nil_iff]
  exact forall_congr' fun name => (vacant_behind_iff h way seen).symm

/-- What deleting a node asks for, the snapshots apart. -/
theorem deletedNode_ok_iff (h : (t.view .live).Hierarchy) {recursive : Bool} :
    (∃ found, t.deletedNode path recursive = .ok found) ↔
      ∃ names, Path.split path = .ok names ∧ Path.snapshotDir ∉ names ∧ names ≠ [] ∧
        t.layout names ≠ none ∧
        ((∀ name, t.layout (names ++ [name]) = none) ∨ recursive = true) := by
  refine exists_ok_live_iff.trans (exists_congr fun names => and_congr_right fun _ =>
    and_congr_right fun _ => ?_)
  rcases List.eq_nil_or_concat' names with rfl | ⟨dirs, name, rfl⟩
  · simp
  have hPermitted : ∀ n : Node, ¬ (n.childIds ≠ [] ∧ (!recursive) = true) ↔
      n.childIds = [] ∨ recursive = true := fun n => by cases recursive <;> simp
  simp only [List.getLast?_concat, exists_ok_bind_iff, liveNode_eq_ok_iff h, live_eq_ok_iff,
    layout_ne_none_iff h]
  constructor
  · rintro ⟨target, way, n, seen, found, hFound⟩
    split at hFound
    · cases hFound
    split at hFound
    · cases hFound
    next hEntries =>
      rw [← childIds_eq_nil_iff_of_leads h way seen]
      exact ⟨by simp, ⟨target, way⟩, (hPermitted n).mp hEntries⟩
  · rintro ⟨_, ⟨target, way⟩, hEmpty⟩
    obtain ⟨n, seen⟩ := h.seen_of_leads way h.root_isSome
    rw [← childIds_eq_nil_iff_of_leads h way seen] at hEmpty
    rcases h.leads_last way seen with ⟨hNil, _⟩ | ⟨_, parent, _, _, hAbove⟩
    · simp at hNil
    refine ⟨target, way, n, seen, (parent, name, target), ?_⟩
    simp only [hAbove, if_neg ((hPermitted n).mpr hEmpty)]

/-- Snapshots at a node or below it are snapshots of what stands at its place or
behind it. -/
theorem free_below_iff (h : (t.view .live).Hierarchy) {target : NodeId}
    (way : (t.view .live).Leads .root names target) :
    (∀ id, (t.view .live).Below target id → t.shelf.hasSnapshots id = false) ↔
      ∀ place o, names <+: place → t.layout place = some o →
        ∀ s ∈ t.shelf.toList, s.root ≠ o.id := by
  simp only [Shelf.hasSnapshots_eq_false_iff]
  constructor
  · intro hFree place o hPrefix standing
    have wayPlace := (View.layout_eq_some_iff.mp standing).1
    exact hFree o.id ((h.below_iff_prefix way wayPlace).mpr hPrefix)
  · rintro hFree id ⟨rest, wayRest⟩
    obtain ⟨o, standing, rfl⟩ := h.exists_occupant (way.append wayRest)
    exact hFree _ o (List.prefix_append ..) standing

theorem planDelete_ok_iff (h : (t.view .live).Hierarchy) {recursive : Bool} :
    (∃ p, t.planDelete path recursive = .ok p) ↔ t.Admissible (.delete path recursive) := by
  constructor
  · rintro ⟨p, planned⟩
    obtain ⟨names, parent, name, target, hSplit, rfl, ⟨_, hFree⟩, way⟩ := planDelete_spec h planned
    have hFound : ∃ found, t.deletedNode path recursive = .ok found := by
      unfold planDelete at planned
      split at planned
      · cases planned
      next hFound => exact ⟨_, hFound⟩
    obtain ⟨names', hSplit', outside, hSome, hThere, hEmpty⟩ := (deletedNode_ok_iff h).mp hFound
    cases hSplit.symm.trans hSplit'
    exact ⟨names, hSplit, outside, hSome, hThere, hEmpty, (free_below_iff h way).mp hFree⟩
  · rintro ⟨names, hSplit, outside, hSome, hThere, hEmpty, hFree⟩
    obtain ⟨⟨parent, name, target⟩, hFound⟩ : ∃ found, t.deletedNode path recursive = .ok found :=
      (deletedNode_ok_iff h).mpr ⟨names, hSplit, outside, hSome, hThere, hEmpty⟩
    obtain ⟨hSever, names', hSplit', way⟩ := deletedNode_spec h hFound
    cases hSplit.symm.trans hSplit'
    obtain ⟨n, seen, _⟩ := hSever.seen
    obtain ⟨ids, hIds, hExact⟩ := subtree_spec h seen
    have hClear : ¬ ids.any t.shelf.hasSnapshots = true := by
      rw [List.any_eq_true]
      rintro ⟨id, hId, hHeld⟩
      rw [(free_below_iff h way).mpr hFree id ((hExact id).mp hId)] at hHeld
      cases hHeld
    exact ⟨.delete parent name target, by simp only [planDelete, hFound, hIds, if_neg hClear]⟩

theorem planSetPolicy_ok_iff (h : (t.view .live).Hierarchy) {policy : PolicyId} :
    (∃ p, t.planSetPolicy path policy = .ok p) ↔ t.Admissible (.setPolicy path policy) := by
  refine exists_ok_live_iff.trans (exists_congr fun names => and_congr_right fun _ =>
    and_congr_right fun _ => ?_)
  simp only [Admits, exists_ok_bind_iff, liveNode_eq_ok_iff h, layout_ne_none_iff h]
  exact exists_congr fun target => and_iff_left ⟨_, rfl⟩

theorem planCreateSnapshot_ok_iff (h : (t.view .live).Hierarchy) {name : String} :
    (∃ p, t.planCreateSnapshot path name = .ok p) ↔
      t.Admissible (.createSnapshot path name) := by
  refine exists_ok_live_iff.trans (exists_congr fun names => and_congr_right fun _ =>
    and_congr_right fun _ => ?_)
  simp only [Admits, exists_ok_bind_iff, exists_ok_unless_iff, liveDirectory_eq_ok_iff h,
    contains_iff]
  simp

theorem planDeleteSnapshot_ok_iff (h : (t.view .live).Hierarchy) {name : String} :
    (∃ p, t.planDeleteSnapshot path name = .ok p) ↔
      t.Admissible (.deleteSnapshot path name) := by
  refine exists_ok_live_iff.trans (exists_congr fun names => and_congr_right fun _ =>
    and_congr_right fun _ => ?_)
  simp only [Admits, exists_ok_bind_iff, exists_ok_if_iff, liveDirectory_eq_ok_iff h,
    contains_iff]
  simp

/-- An edit is planned just where it is admissible. -/
theorem plan_ok_iff (h : (t.view .live).Hierarchy) {e : Edit} :
    (∃ p, t.plan e = .ok p) ↔ t.Admissible e := by
  cases e with
  | mkdirs path => exact (exists_congr fun _ => mapError_eq_ok_iff).trans (planMkdirs_ok_iff h)
  | createFile path replication =>
      exact (exists_congr fun _ => mapError_eq_ok_iff).trans (planCreateFile_ok_iff h)
  | delete path recursive => exact planDelete_ok_iff h
  | setPolicy path policy =>
      exact (exists_congr fun _ => mapError_eq_ok_iff).trans (planSetPolicy_ok_iff h)
  | createSnapshot path name =>
      exact (exists_congr fun _ => mapError_eq_ok_iff).trans (planCreateSnapshot_ok_iff h)
  | deleteSnapshot path name =>
      exact (exists_congr fun _ => mapError_eq_ok_iff).trans (planDeleteSnapshot_ok_iff h)

end Plans

section Room

theorem vacant_of_vacant (h : (t.view .live).Hierarchy) {place : List String}
    (hPrefix : names <+: place) (hVacant : t.layout names = none) : t.layout place = none := by
  by_contra hThere
  obtain ⟨id, way⟩ := (layout_ne_none_iff h).mp hThere
  exact layout_ne_none h way hPrefix hVacant

/-- Behind a node and a vacant place every place is vacant, and before it none. -/
theorem vacancies_append (h : (t.view .live).Hierarchy) {passed missing : List String}
    {parent : NodeId} (way : (t.view .live).Leads .root passed parent)
    (hStop : ∀ first ∈ missing.head?, t.layout (passed ++ [first]) = none) :
    t.layout.vacancies (passed ++ missing) = missing.length := by
  have hTaken : passed.inits.countP (fun place => (t.layout place).isNone) = 0 := by
    rw [List.countP_eq_zero]
    intro place hPlace
    simpa using layout_ne_none h way ((List.mem_inits _ _).mp hPlace)
  rw [Layout.vacancies, List.inits_append, List.countP_append, hTaken, Nat.zero_add]
  cases missing with
  | nil => rfl
  | cons first rest =>
      rw [List.inits_cons, List.tail_cons, List.countP_eq_length.mpr]
      · simp
      · intro place hPlace
        obtain ⟨more, hMore, rfl⟩ := List.mem_map.mp hPlace
        obtain ⟨front, _, rfl⟩ := List.mem_map.mp hMore
        have hBehind : passed ++ [first] <+: passed ++ first :: front :=
          ⟨front, by rw [List.append_assoc, List.singleton_append]⟩
        rw [vacant_of_vacant h hBehind (hStop first rfl)]
        rfl

theorem vacancies_le (h : (t.view .live).Hierarchy) (names : List String) :
    t.layout.vacancies names ≤ names.length := by
  have hRoot : (t.layout []).isNone = false :=
    Option.isNone_eq_false_iff.mpr (Option.isSome_iff_ne_none.mpr
      (layout_ne_none h (.here .root) List.nil_prefix))
  cases names with
  | nil => simp [Layout.vacancies, hRoot]
  | cons name rest =>
      rw [Layout.vacancies, List.inits_cons, List.countP_cons_of_neg (by simp [hRoot])]
      exact List.countP_le_length.trans (by simp)

theorem vacancies_of_room (h : (t.view .live).Hierarchy) {parent : NodeId}
    {passed missing : List String} (way : (t.view .live).Leads .root passed parent)
    (room : (t.view .live).Room parent missing) :
    t.layout.vacancies (passed ++ missing) = missing.length := by
  obtain ⟨pn, seen, _, _, hFirst⟩ := room
  exact vacancies_append h way fun first hMem =>
    (vacant_behind_iff h way seen).mpr (hFirst first hMem)

/-- What a plan needs of the counters is what its edit does. -/
theorem needs_of_plan (h : (t.view .live).Hierarchy) {e : Edit} {p : Plan}
    (planned : t.plan e = .ok p) : ∃ names, Path.split e.path = .ok names ∧
      p.births = e.births t.layout names ∧ p.ticks = e.ticks := by
  cases e with
  | mkdirs path =>
      obtain ⟨_, _, _, hSplit, rfl, fits, passed, rfl, way⟩ :=
        planMkdirs_spec h (mapError_eq_ok_iff.mp planned)
      exact ⟨_, hSplit, (vacancies_of_room h way fits).symm, rfl⟩
  | createFile path replication =>
      obtain ⟨_, _, _, _, hSplit, rfl, fits, passed, rfl, way⟩ :=
        planCreateFile_spec h (mapError_eq_ok_iff.mp planned)
      have hBirths := vacancies_of_room h way fits
      rw [← List.append_assoc, List.length_append] at hBirths
      exact ⟨_, hSplit, hBirths.symm, rfl⟩
  | delete path recursive =>
      obtain ⟨_, _, _, _, hSplit, rfl, _⟩ := planDelete_spec h planned
      exact ⟨_, hSplit, rfl, rfl⟩
  | setPolicy path policy =>
      obtain ⟨_, _, hSplit, rfl, _⟩ := planSetPolicy_spec h (mapError_eq_ok_iff.mp planned)
      exact ⟨_, hSplit, rfl, rfl⟩
  | createSnapshot path name =>
      obtain ⟨_, _, hSplit, rfl, _⟩ := planCreateSnapshot_spec h (mapError_eq_ok_iff.mp planned)
      exact ⟨_, hSplit, rfl, rfl⟩
  | deleteSnapshot path name =>
      obtain ⟨_, _, hSplit, rfl, _⟩ := planDeleteSnapshot_spec h (mapError_eq_ok_iff.mp planned)
      exact ⟨_, hSplit, rfl, rfl⟩

theorem affords_iff (h : (t.view .live).Hierarchy) {e : Edit} {p : Plan}
    (planned : t.plan e = .ok p) : t.Affords p ↔ t.HasRoom e := by
  obtain ⟨names, hSplit, hBirths, hTicks⟩ := needs_of_plan h planned
  constructor
  · intro hAffords names' hSplit'
    cases hSplit.symm.trans hSplit'
    exact ⟨hBirths ▸ hAffords.numbers, hTicks ▸ hAffords.epochs⟩
  · intro hRoom
    obtain ⟨hNumbers, hEpochs⟩ := hRoom names hSplit
    exact ⟨hBirths ▸ hNumbers, hTicks ▸ hEpochs⟩

/-- An edit makes no more nodes than its path has characters. -/
theorem births_le (h : (t.view .live).Hierarchy) {e : Edit} {names : List String}
    (hSplit : Path.split e.path = .ok names) :
    e.births t.layout names ≤ e.path.length ∧ e.ticks ≤ 1 := by
  have hVacant := (vacancies_le h names).trans (Path.length_split_le hSplit)
  cases e with
  | mkdirs path => exact ⟨hVacant, Nat.zero_le _⟩
  | createFile path replication => exact ⟨hVacant, Nat.zero_le _⟩
  | createSnapshot path name => exact ⟨Nat.zero_le _, Nat.le_refl _⟩
  | _ => exact ⟨Nat.zero_le _, Nat.zero_le _⟩

end Room

section Runs

/-- More numbers and epochs than these no edits use up. -/
def demand : List Edit → Nat
  | [] => 0
  | e :: rest => e.path.length + 1 + demand rest

theorem demand_snoc (edits : List Edit) (e : Edit) :
    demand (edits ++ [e]) = demand edits + (e.path.length + 1) := by
  induction edits with
  | nil => simp [demand]
  | cons first rest ih =>
      rw [List.cons_append, demand, demand, ih]
      omega

/-- A run has used up no more than its edits can. -/
theorem run_counters {edits : List Edit} (hRun : new.run edits = .ok t) :
    t.nextId.raw.toNat ≤ demand edits + 2 ∧ t.epoch.toNat ≤ demand edits := by
  induction edits using List.reverseRecOn generalizing t with
  | nil =>
      cases hRun
      exact ⟨Nat.le_refl _, Nat.le_refl _⟩
  | append_singleton edits e ih =>
      rw [run_append] at hRun
      obtain ⟨last, hBefore, hLast⟩ := bind_eq_ok_iff.mp hRun
      have hStep : last.attempt e = .ok t := by simpa [run] using hLast
      have hMore := demand_snoc edits e
      obtain ⟨hNumber, hEpoch⟩ := ih hBefore
      unfold attempt at hStep
      split at hStep
      next id later hApply =>
        cases hStep
        have hLive := (run_sound new_sound hBefore).1.live
        obtain ⟨p, planned, hDone⟩ := apply_eq_ok_iff.mp hApply
        obtain ⟨names, hSplit, hBirths, hTicks⟩ := needs_of_plan hLive planned
        obtain ⟨hMost, hOnce⟩ := births_le hLive hSplit
        obtain ⟨hNumber', hEpoch'⟩ := execute_counters hDone
        omega
      · cases hStep
        omega
      · cases hStep

/-- An edit that follows on a run has room unless the paths of all the edits are
of an enormous length. -/
theorem hasRoom_of_run {edits : List Edit} (hRun : new.run edits = .ok t) {e : Edit}
    (hShort : demand (edits ++ [e]) + 2 < UInt64.size) : t.HasRoom e := by
  intro names hSplit
  have hMore := demand_snoc edits e
  obtain ⟨hNumber, hEpoch⟩ := run_counters hRun
  obtain ⟨hMost, hOnce⟩ := births_le (run_sound new_sound hRun).1.live hSplit
  omega

/-- An edit is refused just where it is not admissible, and made just where it is
and has room. There is always room unless the paths of all the edits together
come to some 2^64 characters. -/
theorem apply_admissible_iff {edits : List Edit} (hRun : new.run edits = .ok t) (e : Edit) :
    ((∃ cause, t.apply e = .error (.refused cause)) ↔ ¬ t.Admissible e) ∧
    ((∃ id later, t.apply e = .ok (id, later)) ↔ t.Admissible e ∧ t.HasRoom e) ∧
    (demand (edits ++ [e]) + 2 < UInt64.size →
      ((∃ id later, t.apply e = .ok (id, later)) ↔ t.Admissible e)) := by
  have hSound := (run_sound new_sound hRun).1
  have hMade : (∃ id later, t.apply e = .ok (id, later)) ↔ t.Admissible e ∧ t.HasRoom e := by
    constructor
    · rintro ⟨id, later, hApply⟩
      obtain ⟨p, planned, hDone⟩ := apply_eq_ok_iff.mp hApply
      refine ⟨(plan_ok_iff hSound.live).mp ⟨p, planned⟩, ?_⟩
      rw [← affords_iff hSound.live planned]
      rcases execute_cases planned with ⟨hAffords, _⟩ | ⟨_, _, hFault⟩ | ⟨_, hFault⟩
      · exact hAffords
      · cases hFault.symm.trans hDone
      · cases hFault.symm.trans hDone
    · rintro ⟨hAdmissible, hRoom⟩
      obtain ⟨p, planned⟩ := (plan_ok_iff hSound.live).mpr hAdmissible
      rw [← affords_iff hSound.live planned] at hRoom
      rcases execute_cases planned with ⟨_, _, id, later, hDone⟩ | ⟨hFull, _⟩ | ⟨hEndless, _⟩
      · exact ⟨id, later, apply_eq_ok_iff.mpr ⟨p, planned, hDone⟩⟩
      · exact absurd hRoom hFull
      · exact absurd (hSound.settles planned) hEndless
  refine ⟨?_, hMade, fun hShort => hMade.trans (and_iff_left (hasRoom_of_run hRun hShort))⟩
  rw [← plan_ok_iff hSound.live]
  unfold apply
  cases hPlan : t.plan e with
  | ok p =>
      refine iff_of_false ?_ (not_not_intro ⟨p, rfl⟩)
      rintro ⟨cause, hRefused⟩
      obtain ⟨f, _, hFault⟩ := mapError_eq_error_iff.mp hRefused
      cases hFault
  | error failure =>
      cases failure with
      | refused cause => exact iff_of_true ⟨cause, rfl⟩ (by simp)
      | fault f => exact absurd hPlan (plan_ne_fault hSound.live e f)

/-- Nothing can be made below a file, and no directory in its place, but both where
a file was deleted. -/
theorem apply_admissible_iff_around_file :
    ∃ t, new.run [.createFile "/a/f" 2, .createFile "/a/g" 2, .delete "/a/g" false] = .ok t ∧
      ¬ t.Admissible (.createFile "/a/f/x" 1) ∧ ¬ t.Admissible (.mkdirs "/a/f") ∧
      t.Admissible (.mkdirs "/a/g/h/") := by
  obtain ⟨t, hRun, hBelow, hSame, hBeside⟩ : ∃ t,
      new.run [.createFile "/a/f" 2, .createFile "/a/g" 2, .delete "/a/g" false] = .ok t ∧
      (∃ cause, t.apply (.createFile "/a/f/x" 1) = .error (.refused cause)) ∧
      (∃ cause, t.apply (.mkdirs "/a/f") = .error (.refused cause)) ∧
      ∃ id later, t.apply (.mkdirs "/a/g/h/") = .ok (id, later) :=
    ⟨_, rfl, ⟨_, rfl⟩, ⟨_, rfl⟩, _, _, rfl⟩
  exact ⟨t, hRun, (apply_admissible_iff hRun _).1.mp hBelow,
    (apply_admissible_iff hRun _).1.mp hSame, ((apply_admissible_iff hRun _).2.1.mp hBeside).1⟩

end Runs

end Tree

end TierTree
