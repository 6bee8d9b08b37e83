import TierTree.Proofs.Tree.Layout
import TierTree.Proofs.Tree.Run

/-!
What edits do to the layout. Every edit that is made changes the occupants of
the places it is about and no others, and the nodes it adds have numbers that
no node had before.
-/

namespace TierTree

/-- Directories without a policy are added at the prefixes of `names` that were
missing, under fresh numbers, and nothing else is changed. -/
structure Layout.Opens (before after : Layout) (fresh : NodeId → Prop) (names : List String) :
    Prop where
  added : ∀ place, place <+: names → before place = none →
    ∃ id, fresh id ∧ after place = some ⟨id, .directory, .unspecified⟩
  kept : ∀ place, (place <+: names → before place ≠ none) → after place = before place

/-- A node stands at a place. -/
def Layout.Has (layout : Layout) (names : List String) (id : NodeId) : Prop :=
  ∃ o, layout names = some o ∧ o.id = id

/-- What an edit about the place `names` does to a layout. `id` is the number
that it answers. -/
def Edit.Effect (e : Edit) (before after : Layout) (fresh : NodeId → Prop)
    (names : List String) (id : NodeId) : Prop :=
  match e with
  | .mkdirs _ => before.Opens after fresh names ∧ after.Has names id
  | .createFile _ replication =>
      before names = none ∧ fresh id ∧ ∃ opened : Layout,
        before.Opens opened fresh names.dropLast ∧ opened names = none ∧
          after = Function.update opened names (some ⟨id, .file replication, .unspecified⟩)
  | .delete _ _ =>
      before.Has names id ∧ ∀ place, after place = if names <+: place then none else before place
  | .setPolicy _ policy =>
      ∃ o, before names = some o ∧ o.id = id ∧
        after = Function.update before names (some { o with policy := policy })
  | .createSnapshot _ _ => before.Has names id ∧ after = before
  | .deleteSnapshot _ _ => before.Has names id ∧ after = before

namespace Layout.Opens

variable {before mid after : Layout} {fresh later : NodeId → Prop} {names : List String}

theorem mono (h : before.Opens after fresh names) (hFresh : ∀ id, fresh id → later id) :
    before.Opens after later names := by
  constructor
  case added =>
    intro place hPrefix hNone
    obtain ⟨id, hId, hAfter⟩ := h.added place hPrefix hNone
    exact ⟨id, hFresh id hId, hAfter⟩
  case kept => exact h.kept

/-- Nothing is added where every prefix is there. -/
theorem refl (hThere : ∀ place, place <+: names → before place ≠ none) :
    before.Opens before fresh names := by
  constructor
  case added =>
    intro place hPrefix hNone
    exact absurd hNone (hThere place hPrefix)
  case kept =>
    intro place _
    rfl

/-- A directory that is added at one of the places comes before the others. -/
theorem step {place : List String} {id : NodeId} (hPrefix : place <+: names) (hId : fresh id)
    (hVacant : before place = none)
    (rest : Layout.Opens
      (Function.update before place (some ⟨id, .directory, .unspecified⟩)) after fresh names) :
    before.Opens after fresh names := by
  constructor
  case added =>
    intro other hOther hNone
    by_cases hSame : other = place
    · subst hSame
      have hKept := rest.kept other (fun _ => by simp)
      exact ⟨id, hId, hKept.trans (Function.update_self ..)⟩
    · exact rest.added other hOther ((Function.update_of_ne hSame ..).trans hNone)
  case kept =>
    intro other hThere
    have hOther : other ≠ place := by
      rintro rfl
      exact hThere hPrefix hVacant
    have hKept := rest.kept other fun hBefore => by
      rw [Function.update_of_ne hOther]
      exact hThere hBefore
    rw [hKept, Function.update_of_ne hOther]

end Layout.Opens

theorem Edit.Effect.mono {before after : Layout} {fresh fresh' : NodeId → Prop}
    {names : List String} {id : NodeId} {e : Edit} (h : e.Effect before after fresh names id)
    (hFresh : ∀ id, fresh id → fresh' id) : e.Effect before after fresh' names id := by
  cases e with
  | mkdirs path => exact ⟨h.1.mono hFresh, h.2⟩
  | createFile path replication =>
      obtain ⟨hVacant, hId, opened, hOpens, hRest⟩ := h
      exact ⟨hVacant, hFresh id hId, opened, hOpens.mono hFresh, hRest⟩
  | delete path recursive => exact h
  | setPolicy path policy => exact h
  | createSnapshot path name => exact h
  | deleteSnapshot path name => exact h

namespace Tree

variable {t added later : Tree} {parent id : NodeId} {passed missing more : List String}

/-- A number that the tree has not given away. -/
def Ahead (t : Tree) (id : NodeId) : Prop := ¬ id < t.nextId

theorem ahead_nextId (t : Tree) : t.Ahead t.nextId := KeyOrder.irrefl _

theorem layout_ne_none (hLive : (t.view .live).Hierarchy)
    (way : (t.view .live).Leads .root passed parent) {place : List String}
    (hPrefix : place <+: passed) : t.layout place ≠ none := by
  obtain ⟨rest, rfl⟩ := hPrefix
  obtain ⟨mid, wayMid, _⟩ := way.split
  obtain ⟨o, hLayout, _⟩ := hLive.exists_occupant wayMid
  rw [layout, hLayout]
  simp

theorem has_of_leads (hLive : (t.view .live).Hierarchy) {names : List String}
    (way : (t.view .live).Leads .root names id) : t.layout.Has names id :=
  hLive.exists_occupant way

/-- A child that is added changes the layout at one place, which was vacant. -/
theorem layout_addChild (hSound : t.Sound) {n pn : Node}
    (ok : (t.view .live).Addable parent t.nextId n pn)
    (way : (t.view .live).Leads .root passed parent)
    (h : t.addChild parent n = .ok (id, added)) :
    id = t.nextId ∧
    added.layout = Function.update t.layout (passed ++ [n.name]) (some (n.occupant id)) ∧
    t.layout (passed ++ [n.name]) = none ∧
    (added.view .live).Leads .root (passed ++ [n.name]) id := by
  have hId := (addChild_cases h).1
  subst hId
  have hView := view_addChild_eq_add ok h
  have hEntry : (pn.mapChildren (·.insert n.name t.nextId)).child? n.name = some t.nextId := by
    rw [Node.child?_insert ok.directory.2, if_pos rfl]
  refine ⟨rfl, ?_, ?_, ?_⟩
  · rw [layout, hView]
    exact hSound.live.layout_add ok way
  · cases hLayout : t.layout (passed ++ [n.name]) with
    | none => rfl
    | some o =>
        obtain ⟨wayOld, _⟩ := View.layout_eq_some_iff.mp hLayout
        obtain ⟨mid, wayMid, wayLast⟩ := wayOld.split
        have hMid := way.deterministic wayMid
        subst hMid
        cases wayLast with
        | into seen entry _ =>
            rw [ok.directory.1, Option.some.injEq] at seen
            rw [← seen, ok.unused] at entry
            cases entry
  · rw [hView]
    exact (View.leads_add ok way).snoc (View.add_parent ok) hEntry

/-- Directories that are made one inside the other open the places on the way
to the last of them. -/
theorem layout_addDirectories (hSound : t.Sound) {dir : NodeId}
    (way : (t.view .live).Leads .root passed parent)
    (room : (t.view .live).Room parent (missing ++ more))
    (h : t.addDirectories parent missing = .ok (dir, added)) :
    t.layout.Opens added.layout t.Ahead (passed ++ missing) ∧
    (added.view .live).Leads .root (passed ++ missing) dir := by
  induction missing generalizing t parent passed with
  | nil =>
      simp only [addDirectories, Except.ok.injEq, Prod.mk.injEq] at h
      obtain ⟨rfl, rfl⟩ := h
      rw [List.append_nil]
      exact ⟨.refl fun _ hPrefix => layout_ne_none hSound.live way hPrefix, way⟩
  | cons name rest ih =>
      obtain ⟨pn, ok⟩ := hSound.kept.addable (n := .newDirectory name (some parent)) room rfl
        (fun _ => rfl)
      obtain ⟨⟨child, opened⟩, hAdd, hRest⟩ := bind_eq_ok_iff.mp h
      obtain ⟨hOpened, _⟩ := addChild_sound hSound ok hAdd
      obtain ⟨hId, hLayout, hVacant, wayChild⟩ := layout_addChild hSound ok way hAdd
      have hChild : opened.view .live child = some (.newDirectory name (some parent)) := by
        rw [view_addChild_eq_add ok hAdd, hId, View.add_self ok]
      have hRoom : (opened.view .live).Room child (rest ++ more) := by
        obtain ⟨_, _, _, hValid, _⟩ := room
        exact ⟨_, hChild, rfl, fun other hOther => hValid other (List.mem_cons_of_mem _ hOther),
          fun _ _ => rfl⟩
      obtain ⟨hOpens, wayLast⟩ := ih hOpened wayChild hRoom hRest
      have hNames : passed ++ [name] ++ rest = passed ++ name :: rest := by simp
      simp only [Node.newDirectory, hNames] at hOpens wayLast
      refine ⟨?_, wayLast⟩
      have hAhead : ∀ id, opened.Ahead id → t.Ahead id := fun id hLater hOld =>
        hLater (KeyOrder.trans hOld (nextId_addChild hAdd))
      have hRestOpens := hOpens.mono hAhead
      rw [hLayout] at hRestOpens
      have hPlace : passed ++ [name] <+: passed ++ name :: rest := ⟨rest, hNames⟩
      exact .step hPlace (hId ▸ ahead_nextId t) hVacant hRestOpens

section Edits
variable {p : Plan} {names : List String}

theorem effect_mkdirs (hSound : t.Sound) (hLater : later.Sound)
    (fits : t.Fits (.mkdirs parent missing)) (aims : t.Aims names (.mkdirs parent missing))
    (h : t.execute (.mkdirs parent missing) = .ok (id, later)) (path : String) :
    (Edit.mkdirs path).Effect t.layout later.layout t.Ahead names id := by
  obtain ⟨passed, rfl, way⟩ := aims
  have room : (t.view .live).Room parent (missing ++ []) := by
    simpa [Fits] using fits
  obtain ⟨hOpens, wayLast⟩ := layout_addDirectories hSound way room h
  exact ⟨hOpens, has_of_leads hLater.live wayLast⟩

theorem effect_createFile (hSound : t.Sound) {name : String} {replication : UInt16}
    (fits : t.Fits (.createFile parent missing name replication))
    (aims : t.Aims names (.createFile parent missing name replication))
    (h : t.execute (.createFile parent missing name replication) = .ok (id, later))
    (path : String) :
    (Edit.createFile path replication).Effect t.layout later.layout t.Ahead names id := by
  obtain ⟨passed, rfl, way⟩ := aims
  obtain ⟨⟨dir, opened⟩, hOpened, hFile⟩ := bind_eq_ok_iff.mp h
  obtain ⟨hOpens, wayDir⟩ := layout_addDirectories hSound way fits hOpened
  obtain ⟨hOpenedSound, hSucceeds, hRoom⟩ := addDirectories_sound hSound fits hOpened
  obtain ⟨pn, ok⟩ := hOpenedSound.kept.addable (n := .newFile name dir replication) hRoom rfl
    (fun _ => rfl)
  obtain ⟨hId, hLayout, hVacant, _⟩ := layout_addChild hOpenedSound ok wayDir hFile
  have hAhead : t.Ahead id := fun hOld => by
    rw [hId] at hOld
    exact KeyOrder.irrefl _ (hSucceeds.nextId hOld)
  have hBefore : t.layout (passed ++ missing ++ [name]) = none := by
    rw [← hVacant]
    refine (hOpens.kept _ fun hPrefix => ?_).symm
    have hLength := hPrefix.length_le
    simp only [List.length_append, List.length_singleton] at hLength
    omega
  exact ⟨hBefore, hAhead, opened.layout, by rwa [List.dropLast_concat], hVacant, hLayout⟩

theorem effect_delete (hSound : t.Sound) {name : String} {target : NodeId}
    (fits : t.Fits (.delete parent name target)) (aims : t.Aims names (.delete parent name target))
    (h : t.execute (.delete parent name target) = .ok (id, later)) (path : String)
    (recursive : Bool) :
    (Edit.delete path recursive).Effect t.layout later.layout t.Ahead names id := by
  obtain ⟨removed, hRemoved, _, hView, _⟩ := removeSubtree_spec hSound fits.1
  simp only [execute, hRemoved] at h
  cases h
  refine ⟨has_of_leads hSound.live aims, fun place => ?_⟩
  rw [layout, hView]
  exact hSound.live.layout_cut fits.1 aims place

theorem effect_setPolicy (hSound : t.Sound) {target : NodeId} {policy : PolicyId}
    (aims : t.Aims names (.setPolicy target policy))
    (h : t.execute (.setPolicy target policy) = .ok (id, later)) (path : String) :
    (Edit.setPolicy path policy).Effect t.layout later.layout t.Ahead names id := by
  have hView : (t.update target fun n => { n with policy := policy }).view .live =
      (t.view .live).govern target policy := view_update ..
  cases h
  obtain ⟨o, standing, hId⟩ := has_of_leads hSound.live aims
  refine ⟨o, standing, hId, ?_⟩
  rw [layout, hView]
  exact hSound.live.layout_govern standing hId policy

theorem effect_createSnapshot (hSound : t.Sound) {root : NodeId} {name : String}
    (fits : t.Fits (.createSnapshot root name)) (aims : t.Aims names (.createSnapshot root name))
    (h : t.execute (.createSnapshot root name) = .ok (id, later)) (path : String) :
    (Edit.createSnapshot path name).Effect t.layout later.layout t.Ahead names id := by
  obtain ⟨⟨n, seen, _⟩, _⟩ := fits
  simp only [execute] at h
  rcases takeSnapshot_spec name hSound seen with ⟨inherited, next, _, _, hTaken⟩ | hFault
  · rw [hTaken] at h
    cases h
    exact ⟨has_of_leads hSound.live aims, congrArg View.layout (view_congr rfl .live)⟩
  · rw [hFault] at h
    cases h

theorem effect_deleteSnapshot (hSound : t.Sound) {root : NodeId} {name : String}
    (aims : t.Aims names (.deleteSnapshot root name))
    (h : t.execute (.deleteSnapshot root name) = .ok (id, later)) (path : String) :
    (Edit.deleteSnapshot path name).Effect t.layout later.layout t.Ahead names id := by
  cases h
  have hView := (view_prune { t with shelf := t.shelf.remove id name }).trans
    (view_congr rfl .live)
  exact ⟨has_of_leads hSound.live aims, congrArg View.layout hView⟩

/-- An edit of a sound tree has its effect at the place that its path names. -/
theorem effect_of_apply (hSound : t.Sound) {e : Edit} (h : t.apply e = .ok (id, later)) :
    ∃ names, Path.split e.path = .ok names ∧ e.Effect t.layout later.layout t.Ahead names id := by
  obtain ⟨p, hPlan, hDone⟩ := apply_eq_ok_iff.mp h
  cases e with
  | mkdirs path =>
      obtain ⟨names, _, _, hSplit, rfl, fits, aims⟩ :=
        planMkdirs_spec hSound.live (mapError_eq_ok_iff.mp hPlan)
      exact ⟨names, hSplit, effect_mkdirs hSound (apply_sound hSound h).1 fits aims hDone path⟩
  | createFile path replication =>
      obtain ⟨names, _, _, _, hSplit, rfl, fits, aims⟩ :=
        planCreateFile_spec hSound.live (mapError_eq_ok_iff.mp hPlan)
      exact ⟨names, hSplit, effect_createFile hSound fits aims hDone path⟩
  | delete path recursive =>
      obtain ⟨names, _, _, _, hSplit, rfl, fits, aims⟩ := planDelete_spec hSound.live hPlan
      exact ⟨names, hSplit, effect_delete hSound fits aims hDone path recursive⟩
  | setPolicy path policy =>
      obtain ⟨names, _, hSplit, rfl, _, aims⟩ :=
        planSetPolicy_spec hSound.live (mapError_eq_ok_iff.mp hPlan)
      exact ⟨names, hSplit, effect_setPolicy hSound aims hDone path⟩
  | createSnapshot path name =>
      obtain ⟨names, _, hSplit, rfl, fits, aims⟩ :=
        planCreateSnapshot_spec hSound.live (mapError_eq_ok_iff.mp hPlan)
      exact ⟨names, hSplit, effect_createSnapshot hSound fits aims hDone path⟩
  | deleteSnapshot path name =>
      obtain ⟨names, _, hSplit, rfl, _, aims⟩ :=
        planDeleteSnapshot_spec hSound.live (mapError_eq_ok_iff.mp hPlan)
      exact ⟨names, hSplit, effect_deleteSnapshot hSound aims hDone path⟩

end Edits

/-- No node had this number in any tree that a run of edits came through, the
last one included. -/
def Unborn (edits : List Edit) (id : NodeId) : Prop :=
  ∀ before, before <+: edits → ∀ t, new.run before = .ok t → t.timelines.get? id = none

/-- What a tree has not given away was never given away before. -/
theorem Ahead.unborn {edits : List Edit} (hRun : new.run edits = .ok t) (hAhead : t.Ahead id) :
    Unborn edits id := by
  intro before hPrefix earlier hEarlier
  obtain ⟨rest, rfl⟩ := hPrefix
  rw [run_append, hEarlier] at hRun
  have hSound := (run_sound new_sound hEarlier).1
  have hSucceeds := (run_sound hSound hRun).2
  cases hLine : earlier.timelines.get? id with
  | none => rfl
  | some line => exact absurd (hSucceeds.nextId (hSound.kept.numbered hLine)) hAhead

/-- Every edit that is made has exactly its effect on the layout of the live
tree. The nodes that it adds have numbers that no node ever had, and no two
places share a node. -/
theorem edit_effect {edits : List Edit} {e : Edit} (hRun : new.run edits = .ok t)
    (hApply : t.apply e = .ok (id, later)) :
    (∃ names, Path.split e.path = .ok names ∧
      e.Effect t.layout later.layout (Unborn edits) names id) ∧
    ∀ place place' o o', later.layout place = some o → later.layout place' = some o' →
      o.id = o'.id → place = place' := by
  have hSound := (run_sound new_sound hRun).1
  constructor
  · obtain ⟨names, hSplit, hEffect⟩ := effect_of_apply hSound hApply
    exact ⟨names, hSplit, hEffect.mono fun id hAhead => hAhead.unborn hRun⟩
  · intro place place' o o' first second hSame
    have hLater := (apply_sound hSound hApply).1
    exact hLater.live.layout_injective first second hSame

/-- A file gets a number of its own, although a file of that name was deleted
before and a snapshot still shows it. -/
theorem edit_effect_beside_snapshot :
    ∃ t later,
      new.run [.createFile "/a/b" 2, .createSnapshot "/a" "s", .delete "/a/b" false] = .ok t ∧
      t.apply (.createFile "/a/b/c" 3) = .ok (⟨5⟩, later) ∧
      (Edit.createFile "/a/b/c" 3).Effect t.layout later.layout
        (Unborn [.createFile "/a/b" 2, .createSnapshot "/a" "s", .delete "/a/b" false])
        ["a", "b", "c"] ⟨5⟩ := by
  obtain ⟨t, later, hRun, hApply⟩ : ∃ t later,
      new.run [.createFile "/a/b" 2, .createSnapshot "/a" "s", .delete "/a/b" false] = .ok t ∧
      t.apply (.createFile "/a/b/c" 3) = .ok (⟨5⟩, later) := ⟨_, _, rfl, rfl⟩
  obtain ⟨names, hSplit, hEffect⟩ := (edit_effect hRun hApply).1
  have hNames : names = ["a", "b", "c"] := by
    cases hSplit
    rfl
  exact ⟨t, later, hRun, hApply, hNames ▸ hEffect⟩

end Tree

end TierTree
