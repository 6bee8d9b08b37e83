import TierTree.Proofs.Tree.Capacity
import TierTree.Proofs.Tree.Effect
import TierTree.Proofs.Tree.Frozen
import TierTree.Proofs.Tree.Resolution

/-!
How far a policy reaches. Setting the policy of a node changes what is in force
for the node and for what is below it, as far down as no other policy is set.
Nothing else is changed, and nothing that a snapshot shows.
-/

namespace TierTree

namespace View

variable {v w : View} {top : NodeId} {inherited policy : PolicyId} {names place : List String}

theorem nearest_congr
    (h : ∀ front, front <+: place → v.explicitAt top front = w.explicitAt top front) :
    v.nearest top inherited place = w.nearest top inherited place := by
  induction place using List.reverseRecOn with
  | nil => simp [nearest, h [] List.nil_prefix]
  | append_singleton place name ih =>
      rw [nearest_snoc, nearest_snoc, h _ (List.prefix_refl _),
        ih fun front hPrefix => h front (hPrefix.trans (List.prefix_append ..))]

theorem nearest_of_explicit (h : v.explicitAt top names = some policy) :
    v.nearest top inherited names = policy := by
  rcases List.eq_nil_or_concat' names with rfl | ⟨before, name, rfl⟩
  · simp [nearest, h]
  · simp [nearest_snoc, h]

theorem nearest_of_silent (h : v.explicitAt top names = none) :
    v.nearest top inherited names =
      if names = [] then inherited else v.nearest top inherited names.dropLast := by
  rcases List.eq_nil_or_concat' names with rfl | ⟨before, name, rfl⟩
  · simp [nearest, h]
  · simp [nearest_snoc, h]

/-- Behind a place where nothing has a policy of its own, the policy in force
there stays in force. -/
theorem nearest_behind (hBehind : names <+: place)
    (h : ∀ between, names <+: between → between <+: place → between ≠ names →
      v.explicitAt top between = none) :
    v.nearest top inherited place = v.nearest top inherited names := by
  obtain ⟨rest, rfl⟩ := hBehind
  induction rest using List.reverseRecOn with
  | nil => rw [List.append_nil]
  | append_singleton rest name ih =>
      have hLast := h (names ++ (rest ++ [name])) (List.prefix_append ..) (List.prefix_refl _)
        (by simp)
      rw [← List.append_assoc] at h hLast ⊢
      rw [nearest_snoc, hLast]
      exact ih fun between hFirst hSecond =>
        h between hFirst (hSecond.trans (List.prefix_append ..))

/-- What is in force at a place depends on nothing before a node on the way that
has a policy of its own. -/
theorem nearest_congr_behind {between : List String} (hBetween : between <+: place)
    (hExplicit : v.explicitAt top between ≠ none)
    (h : ∀ front, between <+: front → front <+: place →
      v.explicitAt top front = w.explicitAt top front) :
    v.nearest top inherited place = w.nearest top inherited place := by
  obtain ⟨rest, rfl⟩ := hBetween
  induction rest using List.reverseRecOn with
  | nil =>
      rw [List.append_nil]
      obtain ⟨policy, hPolicy⟩ := Option.ne_none_iff_exists'.mp hExplicit
      have hSame := h between (List.prefix_refl _) (List.prefix_append ..)
      rw [nearest_of_explicit hPolicy, nearest_of_explicit (hSame ▸ hPolicy)]
  | append_singleton rest name ih =>
      have hLast := h (between ++ (rest ++ [name])) (List.prefix_append ..) (List.prefix_refl _)
      rw [← List.append_assoc] at h hLast ⊢
      rw [nearest_snoc, nearest_snoc, hLast,
        ih fun front hFirst hSecond => h front hFirst (hSecond.trans (List.prefix_append ..))]

theorem explicitAt_root (v : View) (names : List String) :
    v.explicitAt .root names =
      (v.layout names).bind fun o => if o.policy = .unspecified then none else some o.policy := by
  simp only [explicitAt, layout, Option.bind_eq_bind, Option.bind_assoc, Option.pure_def,
    Option.bind_some]
  rfl

end View

/-- A place takes over what is in force at another one: it is this place or is
behind it, and nothing behind the other place on the way, the place itself
included, has a policy of its own. -/
def Layout.InheritsFrom (layout : Layout) (place names : List String) : Prop :=
  names <+: place ∧ ∀ between o, names <+: between → between <+: place → between ≠ names →
    layout between = some o → o.policy = .unspecified

section Scope
variable {v : View} {o : Occupant} {policy inherited : PolicyId} {names place : List String}

variable (policy) in
theorem View.explicitAt_govern (h : v.Hierarchy) (standing : v.layout names = some o)
    (front : List String) :
    (v.govern o.id policy).explicitAt .root front =
      if front = names then (if policy = .unspecified then none else some policy)
      else v.explicitAt .root front := by
  rw [explicitAt_root, explicitAt_root, h.layout_govern standing rfl policy]
  by_cases hSame : front = names
  · rw [hSame, Function.update_self, if_pos rfl]
    rfl
  · rw [Function.update_of_ne hSame, if_neg hSame]

theorem Layout.InheritsFrom.silent (h : v.layout.InheritsFrom place names) {between : List String}
    (hFirst : names <+: between) (hSecond : between <+: place) (hStrict : between ≠ names) :
    v.explicitAt .root between = none := by
  rw [View.explicitAt_root, Option.bind_eq_none_iff]
  intro o standing
  rw [if_pos (h.2 between o hFirst hSecond hStrict standing)]

/-- A policy that is set is in force where it is taken over from there. One that
is taken away leaves what is in force before it. -/
theorem View.nearest_govern_of_inherits (h : v.Hierarchy) (standing : v.layout names = some o)
    (hInherits : v.layout.InheritsFrom place names) :
    (v.govern o.id policy).nearest .root inherited place =
      if policy ≠ .unspecified then policy
      else if names = [] then inherited else v.nearest .root inherited names.dropLast := by
  have hExplicit := View.explicitAt_govern policy h standing
  rw [nearest_behind hInherits.1 fun between hFirst hSecond hStrict => by
    rw [hExplicit, if_neg hStrict, hInherits.silent hFirst hSecond hStrict]]
  have hHere := hExplicit names
  rw [if_pos rfl] at hHere
  by_cases hSilent : policy = .unspecified
  · rw [if_neg (not_not_intro hSilent)]
    rw [if_pos hSilent] at hHere
    rw [nearest_of_silent hHere]
    split
    · rfl
    next hNotRoot =>
      refine nearest_congr fun front hPrefix => ?_
      have hShorter : front ≠ names := by
        rintro rfl
        have hLength := hPrefix.length_le
        rw [List.length_dropLast] at hLength
        have hPositive := List.length_pos_iff.mpr hNotRoot
        omega
      rw [hExplicit, if_neg hShorter]
  · rw [if_neg hSilent] at hHere
    rw [if_pos hSilent, nearest_of_explicit hHere]

/-- Where nothing is taken over from a place, a policy set there is of no
consequence. -/
theorem View.nearest_govern_of_not_inherits (h : v.Hierarchy) (standing : v.layout names = some o)
    (hOutside : ¬ v.layout.InheritsFrom place names) :
    (v.govern o.id policy).nearest .root inherited place = v.nearest .root inherited place := by
  have hExplicit := View.explicitAt_govern policy h standing
  by_cases hBehind : names <+: place
  · -- a policy of its own stands between the two places
    obtain ⟨between, o', hFirst, hSecond, hStrict, hThere, hOwn⟩ : ∃ between o', names <+: between ∧
        between <+: place ∧ between ≠ names ∧ v.layout between = some o' ∧
          o'.policy ≠ .unspecified := by
      by_contra hNone
      refine hOutside ⟨hBehind, fun between o' hFirst hSecond hStrict hThere => ?_⟩
      by_contra hOwn
      exact hNone ⟨between, o', hFirst, hSecond, hStrict, hThere, hOwn⟩
    have hSet : v.explicitAt .root between ≠ none := by
      rw [View.explicitAt_root, hThere, Option.bind_some, if_neg hOwn]
      exact Option.some_ne_none _
    refine (nearest_congr_behind hSecond hSet fun front hMore _ => ?_).symm
    have hLonger : front ≠ names := by
      rintro rfl
      exact hStrict (hMore.eq_of_length_le hFirst.length_le)
    rw [hExplicit, if_neg hLonger]
  · refine nearest_congr fun front hPrefix => ?_
    have hElsewhere : front ≠ names := by
      rintro rfl
      exact hBehind hPrefix
    rw [hExplicit, if_neg hElsewhere]

end Scope

/-- What a layer shows of a node after one of the live tree was given a
policy. -/
def Layer.govern (layer : Layer) (target : NodeId) (policy : PolicyId) (id : NodeId) (n : Node) :
    Node :=
  if layer = .live ∧ id = target then { n with policy := policy } else n

/-- What a path leads to after a node of the live tree was given a policy. -/
def Resolved.govern (target : NodeId) (policy : PolicyId) : Resolved → Resolved
  | .node id layer n => .node id layer (layer.govern target policy id n)
  | .snapshotDir dir => .snapshotDir dir

section Govern
variable {layer : Layer} {target id : NodeId} {policy : PolicyId} {n : Node}

@[simp] theorem Layer.children?_govern :
    (layer.govern target policy id n).children? = n.children? := by
  unfold govern
  split <;> rfl

@[simp] theorem Layer.isDirectory_govern :
    (layer.govern target policy id n).isDirectory = n.isDirectory := by
  simp [Node.isDirectory]

theorem Layer.govern_target :
    Layer.live.govern target policy target = fun n => { n with policy := policy } := by
  funext n
  exact if_pos ⟨rfl, rfl⟩

theorem Layer.govern_other (h : ¬ (layer = .live ∧ id = target)) :
    layer.govern target policy id = fun n => n := by
  funext n
  exact if_neg h

theorem Layer.govern_frozen (s : Snapshot) : s.layer.govern target policy id = fun n => n :=
  govern_other (by simp [Snapshot.layer])

end Govern

namespace Tree

variable {t later : Tree} {path : String} {layer : Layer} {target id : NodeId}
  {policy : PolicyId} {n : Node} {names : List String} {s : Snapshot}

/-- A layer that paths lead into. -/
def Shown (t : Tree) (layer : Layer) : Prop := layer = .live ∨ ∃ s ∈ t.shelf.toList, layer = s.layer

/-- A tree in which nothing was changed but the policy of one live node. -/
structure Governs (later t : Tree) (target : NodeId) (policy : PolicyId) : Prop where
  shelf : later.shelf = t.shelf
  seen : ∀ {layer}, t.Shown layer → ∀ id,
    later.node? id layer = (t.node? id layer).map (layer.govern target policy id)

theorem update_governs (hSound : t.Sound) (target : NodeId) (policy : PolicyId) :
    (t.update target fun n => { n with policy := policy }).Governs t target policy := by
  refine ⟨shelf_update .., ?_⟩
  rintro layer (rfl | ⟨s, held, rfl⟩) id
  · have hView : (t.update target fun n => { n with policy := policy }).view .live =
        (t.view .live).govern target policy := view_update ..
    change (t.update target fun n => { n with policy := policy }).view .live id = _
    rw [hView, View.govern_apply]
    by_cases hTarget : id = target
    · rw [if_pos hTarget, hTarget, Layer.govern_target]
      rfl
    · rw [if_neg hTarget, Layer.govern_other (fun h => hTarget h.2), Option.map_id']
      rfl
  · have hPast : (t.update target fun n => { n with policy := policy }).view s.layer =
        t.view s.layer := by
      rw [view_layer, view_layer, past_update _ _ _ (hSound.earlier s held)]
    change (t.update target fun n => { n with policy := policy }).view s.layer id = _
    rw [hPast, Layer.govern_frozen, Option.map_id']
    rfl

section Reads

theorem Governs.node_frozen (h : later.Governs t target policy) (held : s ∈ t.shelf.toList)
    (id : NodeId) : later.node? id s.layer = t.node? id s.layer := by
  rw [h.seen (.inr ⟨s, held, rfl⟩), Layer.govern_frozen, Option.map_id']

/-- A walk by names finds the same in both trees, apart from the policy of the
target: the induction is on the walk, and a step into a snapshot leads to a layer
that has not changed. -/
theorem Governs.follow (h : later.Governs t target policy) (hLayer : t.Shown layer) :
    later.follow path id layer (layer.govern target policy id n) names =
      (t.follow path id layer n names).map (Resolved.govern target policy) := by
  fun_induction t.follow path id layer n names with
  | case1 id layer n => rfl
  | case2 id layer n component special directory =>
      rw [Tree.follow, if_pos special, if_pos (by simpa using directory)]
      rfl
  | case3 id layer n component special directory name rest absent =>
      rw [Tree.follow, if_pos special, if_pos (by simpa using directory)]
      simp only [h.shelf, absent]
      rfl
  | case4 id layer n component special directory name rest s hHeld absent =>
      obtain ⟨rfl, rfl⟩ := Shelf.key_of_get? hHeld
      have held := Shelf.mem_toList_iff.mpr hHeld
      rw [Tree.follow, if_pos special, if_pos (by simpa using directory)]
      simp only [h.shelf, hHeld, h.node_frozen held, absent]
      rfl
  | case5 id layer n component special directory name rest s hHeld frozen hFrozen ih =>
      obtain ⟨rfl, rfl⟩ := Shelf.key_of_get? hHeld
      have held := Shelf.mem_toList_iff.mpr hHeld
      have hBelow := ih (.inr ⟨s, held, rfl⟩)
      rw [Layer.govern_frozen] at hBelow
      rw [Tree.follow, if_pos special, if_pos (by simpa using directory)]
      simp only [h.shelf, hHeld, h.node_frozen held, hFrozen]
      exact hBelow
  | case6 id layer n component rest special file =>
      rw [Tree.follow.eq_def]
      simp only [if_pos special, Layer.isDirectory_govern, if_neg file]
      rfl
  | case7 id layer n component rest plain file =>
      rw [Tree.follow.eq_def]
      simp only [if_neg plain, Layer.children?_govern, file]
      rfl
  | case8 id layer n component rest plain children hChildren absent =>
      rw [Tree.follow.eq_def]
      simp only [if_neg plain, Layer.children?_govern, hChildren, absent]
      rfl
  | case9 id layer n component rest plain children hChildren child hChild absent =>
      rw [Tree.follow.eq_def]
      simp only [if_neg plain, Layer.children?_govern, hChildren, hChild, h.seen hLayer, absent]
      rfl
  | case10 id layer n component rest plain children hChildren child hChild cn hSeen ih =>
      rw [Tree.follow.eq_def]
      simp only [if_neg plain, Layer.children?_govern, hChildren, hChild, h.seen hLayer, hSeen]
      exact ih hLayer

/-- Paths lead where they led before. -/
theorem Governs.resolve (h : later.Governs t target policy) (path : String) :
    later.resolve path = (t.resolve path).map (Resolved.govern target policy) := by
  unfold Tree.resolve
  cases Path.split path with
  | error cause => rfl
  | ok names =>
      simp only [h.seen (.inl rfl)]
      cases t.node? .root .live with
      | none => rfl
      | some r => exact h.follow (.inl rfl)

theorem Governs.effectivePolicy_frozen (h : later.Governs t target policy)
    (held : s ∈ t.shelf.toList) (id : NodeId) :
    later.effectivePolicy id s.layer = t.effectivePolicy id s.layer :=
  effectivePolicy_congr (h.node_frozen held) id

theorem Governs.statusOfNode_frozen (h : later.Governs t target policy)
    (held : s ∈ t.shelf.toList) (id : NodeId) (n : Node) :
    later.statusOfNode id s.layer n = t.statusOfNode id s.layer n := by
  simp only [statusOfNode, displayName, h.shelf, h.effectivePolicy_frozen held]

/-- What is listed through snapshots is listed as before. -/
theorem Governs.statuses_frozen (h : later.Governs t target policy)
    {layered : List (NodeId × Layer)}
    (hLayers : ∀ e ∈ layered, ∃ s ∈ t.shelf.toList, e.2 = s.layer) :
    ((later.visible layered).mapM fun e => later.statusOfNode e.1 e.2.1 e.2.2) =
      (t.visible layered).mapM fun e => t.statusOfNode e.1 e.2.1 e.2.2 := by
  have hVisible : later.visible layered = t.visible layered := by
    refine List.filterMap_congr fun e hMem => ?_
    obtain ⟨s, held, hLayer⟩ := hLayers e hMem
    rw [hLayer, h.node_frozen held]
  rw [hVisible]
  refine Shows.mapM_congr fun e hMem => ?_
  obtain ⟨e', hMem', hState⟩ := List.mem_filterMap.mp hMem
  obtain ⟨n, _, rfl⟩ := Option.map_eq_some_iff.mp hState
  obtain ⟨s, held, hLayer⟩ := hLayers e' hMem'
  simp only [hLayer, h.statusOfNode_frozen held]

theorem Governs.list_frozen (h : later.Governs t target policy) (held : s ∈ t.shelf.toList)
    (id : NodeId) (n : Node) :
    ((later.listed (.node id s.layer n)).mapM fun e => later.statusOfNode e.1 e.2.1 e.2.2) =
      (t.listed (.node id s.layer n)).mapM fun e => t.statusOfNode e.1 e.2.1 e.2.2 := by
  simp only [listed]
  cases hChildren : n.children? with
  | none => simp only [List.mapM_cons, h.statusOfNode_frozen held, List.mapM_nil]
  | some children =>
      refine h.statuses_frozen fun e hMem => ?_
      obtain ⟨child, _, rfl⟩ := List.mem_map.mp hMem
      exact ⟨s, held, rfl⟩

theorem Governs.list_snapshots (h : later.Governs t target policy) (dir : NodeId) :
    ((later.listed (.snapshotDir dir)).mapM fun e => later.statusOfNode e.1 e.2.1 e.2.2) =
      (t.listed (.snapshotDir dir)).mapM fun e => t.statusOfNode e.1 e.2.1 e.2.2 := by
  simp only [listed, h.shelf]
  refine h.statuses_frozen fun e hMem => ?_
  obtain ⟨s, hOf, rfl⟩ := List.mem_map.mp hMem
  exact ⟨s, (List.mem_filter.mp hOf).1, rfl⟩

/-- Every read of a path gives what it gave before. -/
structure ReadsSame (later t : Tree) (path : String) : Prop where
  resolve : later.resolve path = t.resolve path
  info : later.info path = t.info path
  list : later.list path = t.list path
  policy : later.effectivePolicyOf path = t.effectivePolicyOf path

/-- Every read through a snapshot gives what it gave before: of a node by its
number, of a path that enters a snapshot, of the list of snapshots of a
directory, and of a path given by a directory, a snapshot and the rest. -/
structure SnapshotsReadSame (later t : Tree) : Prop where
  shelf : later.shelf = t.shelf
  nodes : ∀ s ∈ t.shelf.toList, ∀ id, later.node? id s.layer = t.node? id s.layer ∧
    later.effectivePolicy id s.layer = t.effectivePolicy id s.layer
  paths : ∀ path dir name below,
    Path.split path = .ok (dir ++ Path.snapshotDir :: name :: below) → later.ReadsSame t path
  lists : ∀ path dir, Path.split path = .ok (dir ++ [Path.snapshotDir]) →
    later.list path = t.list path
  inside : ∀ dir name subpath,
    later.resolveInSnapshot dir name subpath = t.resolveInSnapshot dir name subpath

theorem Governs.readsSame (h : later.Governs t target policy) (hSound : t.Sound)
    {dir below : List String} {name : String}
    (hSplit : Path.split path = .ok (dir ++ Path.snapshotDir :: name :: below)) :
    later.ReadsSame t path := by
  have hResolve := h.resolve path
  cases hFound : t.resolve path with
  | error e =>
      rw [hFound] at hResolve
      have hLater : later.resolve path = .error e := hResolve
      constructor <;> simp only [info, list, effectivePolicyOf, hFound, hLater]
  | ok found =>
      obtain ⟨s, held, id, n, rfl⟩ := frozen_of_resolve hSound hSplit hFound
      rw [hFound, Except.map, Resolved.govern, Layer.govern_frozen] at hResolve
      constructor
      case resolve => rw [hFound, hResolve]
      case info => simp only [info, hFound, hResolve, statusOf, h.statusOfNode_frozen held]
      case list => simp only [list, hFound, hResolve, h.list_frozen held]
      case policy =>
        simp only [effectivePolicyOf, hFound, hResolve, h.effectivePolicy_frozen held]

theorem Governs.list_snapshotDir (h : later.Governs t target policy) (hSound : t.Sound)
    {dir : List String} (hSplit : Path.split path = .ok (dir ++ [Path.snapshotDir])) :
    later.list path = t.list path := by
  have hResolve := h.resolve path
  cases hFound : t.resolve path with
  | error e =>
      rw [hFound] at hResolve
      have hLater : later.resolve path = .error e := hResolve
      simp only [list, hFound, hLater]
  | ok found =>
      rw [hFound] at hResolve
      cases found with
      | snapshotDir dir =>
          have hLater : later.resolve path = .ok (.snapshotDir dir) := hResolve
          simp only [list, hFound, hLater, h.list_snapshots]
      | node id layer n =>
          -- only a path inside a snapshot leads to a node with `.snapshot` at its end
          generalize hNames : dir ++ [Path.snapshotDir] = names at hSplit
          cases finds_of_resolve hSound hSplit hFound with
          | live outside => exact absurd (hNames ▸ by simp) outside
          | @frozen front below s _ _ _ held =>
              rw [Except.map, Resolved.govern, Layer.govern_frozen] at hResolve
              simp only [list, hFound, hResolve, h.list_frozen held]

theorem Governs.resolveInSnapshot (h : later.Governs t target policy) (hSound : t.Sound)
    (dir name subpath : String) :
    later.resolveInSnapshot dir name subpath = t.resolveInSnapshot dir name subpath := by
  by_cases hName : Path.isValidName name = true
  · rw [resolveInSnapshot_eq hName, resolveInSnapshot_eq hName]
    cases hSplit : Path.split (Path.inSnapshot dir name subpath) with
    | error cause => simp only [Tree.resolve, hSplit]
    | ok names =>
        obtain ⟨front, below, rfl⟩ := Path.names_inSnapshot hName hSplit
        exact (h.readsSame hSound hSplit).resolve
  · rw [Tree.resolveInSnapshot, Tree.resolveInSnapshot, if_neg hName, if_neg hName]

theorem Governs.snapshotsReadSame (h : later.Governs t target policy) (hSound : t.Sound) :
    later.SnapshotsReadSame t where
  shelf := h.shelf
  nodes _ held id := ⟨h.node_frozen held id, h.effectivePolicy_frozen held id⟩
  paths _ _ _ _ hSplit := h.readsSame hSound hSplit
  lists _ _ hSplit := h.list_snapshotDir hSound hSplit
  inside := h.resolveInSnapshot hSound

end Reads

/-- What setting the policy of the node at a path changes. At the live places
that take over from there the policy is in force afterwards, or, where it was
taken away, what is in force for the parent of the node, and nothing for the
root. At all other live places the policy in force stays as it is, and so does
every read through a snapshot. -/
theorem setPolicy_reaches {edits : List Edit} (hRun : new.run edits = .ok t)
    (hApply : t.apply (.setPolicy path policy) = .ok (id, later)) :
    ∃ names above, Path.split path = .ok names ∧ Path.split above = .ok names.dropLast ∧
      (∀ q place i n, Path.split q = .ok place → t.resolve q = .ok (.node i .live n) →
        (t.layout.InheritsFrom place names → later.effectivePolicyOf q =
          if policy ≠ .unspecified then .ok policy
          else if names = [] then .ok .unspecified else t.effectivePolicyOf above) ∧
        (¬ t.layout.InheritsFrom place names →
          later.effectivePolicyOf q = t.effectivePolicyOf q)) ∧
      later.SnapshotsReadSame t := by
  have hSound := (run_sound new_sound hRun).1
  have hLater := (apply_sound hSound hApply).1
  obtain ⟨p, planned, hDone⟩ := apply_eq_ok_iff.mp hApply
  obtain ⟨names, target, hSplit, rfl, _, way⟩ :=
    planSetPolicy_spec hSound.live (mapError_eq_ok_iff.mp planned)
  cases hDone
  have hGoverns := update_governs hSound id policy
  have hView : (t.update id fun n => { n with policy := policy }).view .live =
      (t.view .live).govern id policy := view_update ..
  obtain ⟨o, standing, rfl⟩ := hSound.live.exists_occupant way
  obtain ⟨above, hAbove⟩ := Path.exists_split fun name hMem =>
    hSound.live.valid_of_leads way name (List.dropLast_subset names hMem)
  have hParent : t.effectivePolicyOf above =
      .ok ((t.view .live).nearest .root .unspecified names.dropLast) := by
    obtain ⟨rest, hRest⟩ := List.dropLast_prefix names
    obtain ⟨b, wayAbove, _⟩ := (hRest ▸ way).split
    obtain ⟨bn, hResolve⟩ := resolve_of_leads hSound hAbove wayAbove
    exact policyOf_live hSound hAbove hResolve
  refine ⟨names, above, hSplit, hAbove, fun q place i n hPlace hResolve => ?_,
    hGoverns.snapshotsReadSame hSound⟩
  have hBefore := policyOf_live hSound hPlace hResolve
  have hAfter : (t.update o.id fun n => { n with policy := policy }).effectivePolicyOf q =
      .ok (((t.view .live).govern o.id policy).nearest .root .unspecified place) := by
    have hStill := hGoverns.resolve q
    rw [hResolve] at hStill
    rw [← hView]
    exact policyOf_live hLater hPlace hStill
  constructor
  · intro hInherits
    rw [hAfter, hParent, View.nearest_govern_of_inherits hSound.live standing hInherits]
    split
    · rfl
    · split <;> rfl
  · intro hOutside
    rw [hAfter, hBefore, View.nearest_govern_of_not_inherits hSound.live standing hOutside]

/-- A directory takes over what is set above it, and is still read through a
snapshot as before. -/
theorem setPolicy_reaches_below_snapshot :
    ∃ t id later, new.run [.mkdirs "/a/b", .createSnapshot "/a" "s"] = .ok t ∧
      t.apply (.setPolicy "/a" ⟨8⟩) = .ok (id, later) ∧
      t.layout.InheritsFrom ["a", "b"] ["a"] ∧ later.effectivePolicyOf "/a/b" = .ok ⟨8⟩ ∧
      later.ReadsSame t "/a/.snapshot/s/b" := by
  obtain ⟨t, id, later, hRun, hApply, hResolve, hSilent⟩ : ∃ t id later,
      new.run [.mkdirs "/a/b", .createSnapshot "/a" "s"] = .ok t ∧
      t.apply (.setPolicy "/a" ⟨8⟩) = .ok (id, later) ∧
      t.resolve "/a/b" = .ok (.node ⟨3⟩ .live (.newDirectory "b" (some ⟨2⟩))) ∧
      t.layout ["a", "b"] = some ⟨⟨3⟩, .directory, .unspecified⟩ :=
    ⟨_, _, _, rfl, rfl, by decide +kernel, by decide +kernel⟩
  obtain ⟨names, above, hSplit, _, hScope, hSnapshots⟩ := setPolicy_reaches hRun hApply
  have hNames : Path.split "/a" = .ok ["a"] := rfl
  cases hNames.symm.trans hSplit
  have hInherits : t.layout.InheritsFrom ["a", "b"] ["a"] := by
    refine ⟨⟨["b"], rfl⟩, ?_⟩
    rintro _ o ⟨rest, rfl⟩ hSecond hStrict standing
    cases rest with
    | nil => exact absurd rfl hStrict
    | cons name rest =>
        simp only [List.singleton_append, List.cons_prefix_cons, List.prefix_nil, true_and]
          at hSecond
        obtain ⟨rfl, rfl⟩ := hSecond
        cases hSilent.symm.trans standing
        rfl
  refine ⟨t, id, later, hRun, hApply, hInherits, ?_, ?_⟩
  · exact (hScope "/a/b" ["a", "b"] _ _ rfl hResolve).1 hInherits
  · exact hSnapshots.paths _ ["a"] "s" ["b"] rfl

end Tree

end TierTree
