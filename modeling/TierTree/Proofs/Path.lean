import Mathlib.Data.List.Induction
import TierTree.Path

/-!
Components of paths. A path is read in two steps: its parts between slashes,
and the check of each part. Joining a path with a name adds the name behind the
parts of the path, whatever slashes stand at its end.
-/

namespace TierTree.Path

section Slashes
variable {cs rest front back : List Char} {c : Char}

theorem trimBack_cons (c : Char) (rest : List Char) :
    trimBack (c :: rest) = if c = '/' ∧ trimBack rest = [] then [] else c :: trimBack rest := by
  simp only [trimBack, trimFront, List.reverse_cons, List.dropWhile_append]
  by_cases hRest : rest.reverse.dropWhile (· = '/') = []
  · by_cases hSlash : c = '/' <;> simp [hRest, hSlash]
  · simp [hRest]

theorem head?_trimFront (cs : List Char) : (trimFront cs).head? ≠ some '/' := by
  intro hFirst
  have hNot := List.head?_dropWhile_not (fun c => decide (c = '/')) cs
  rw [← trimFront, hFirst] at hNot
  simp at hNot

/-- Slashes are taken off the two ends in either order. -/
theorem trimBack_trimFront (cs : List Char) :
    trimBack (trimFront cs) = trimFront (trimBack cs) := by
  induction cs with
  | nil => rfl
  | cons c rest ih =>
      by_cases hSlash : c = '/'
      · have hDrop : trimFront (c :: rest) = trimFront rest := by simp [trimFront, hSlash]
        rw [hDrop, ih, trimBack_cons]
        by_cases hRest : trimBack rest = []
        · simp [hSlash, hRest]
        · simp [hSlash, hRest, trimFront]
      · have hStay : ∀ more, trimFront (c :: more) = c :: more := by simp [trimFront, hSlash]
        rw [hStay, trimBack_cons, if_neg (fun h => hSlash h.1), hStay]

theorem trimBack_ne_nil (hHead : cs.head? ≠ some '/') (hSome : cs ≠ []) : trimBack cs ≠ [] := by
  cases cs with
  | nil => exact absurd rfl hSome
  | cons c rest =>
      have hSlash : c ≠ '/' := fun h => hHead (by simp [h])
      rw [trimBack_cons, if_neg (fun h => hSlash h.1)]
      exact List.cons_ne_nil _ _

/-- Only the last of several parts loses slashes at its end. -/
theorem trimBack_append (hBack : trimBack back ≠ []) :
    trimBack (front ++ back) = front ++ trimBack back := by
  induction front with
  | nil => rfl
  | cons c rest ih =>
      have hRest : trimBack (rest ++ back) ≠ [] := by
        rw [ih]
        exact List.append_ne_nil_of_right_ne_nil _ hBack
      rw [List.cons_append, trimBack_cons, if_neg (fun h => hRest h.2), ih, List.cons_append]

theorem trimBack_of_plain (hPlain : '/' ∉ cs) : trimBack cs = cs := by
  induction cs with
  | nil => rfl
  | cons c rest ih =>
      obtain ⟨hFirst, hRest⟩ := List.ne_and_not_mem_of_not_mem_cons hPlain
      rw [trimBack_cons, if_neg (fun h => hFirst h.1.symm), ih hRest]

end Slashes

section Segments
variable {cs segment : List Char}

theorem segments_ne_nil (cs : List Char) : segments cs ≠ [] := by
  cases cs with
  | nil => simp [segments]
  | cons c rest =>
      simp only [segments]
      split
      · simp
      · split <;> simp

theorem slash_not_mem_segment (h : segment ∈ segments cs) : '/' ∉ segment := by
  induction cs generalizing segment with
  | nil => simp_all [segments]
  | cons c rest ih =>
      simp only [segments] at h
      split at h
      · rcases List.mem_cons.mp h with rfl | h
        · exact List.not_mem_nil
        · exact ih h
      next hSlash =>
        cases hRest : segments rest with
        | nil => exact absurd hRest (segments_ne_nil rest)
        | cons first more =>
            rw [hRest] at h
            rcases List.mem_cons.mp h with rfl | h
            · have hFirst : '/' ∉ first := ih (by simp [hRest])
              simp [hFirst, Ne.symm hSlash]
            · exact ih (by simp [hRest, h])

theorem segments_of_plain (hPlain : '/' ∉ cs) : segments cs = [cs] := by
  induction cs with
  | nil => rfl
  | cons c rest ih =>
      obtain ⟨hFirst, hRest⟩ := List.ne_and_not_mem_of_not_mem_cons hPlain
      simp only [segments, if_neg hFirst.symm, ih hRest]

/-- A slash separates what stands before it from what stands behind it. -/
theorem segments_append (front back : List Char) :
    segments (front ++ '/' :: back) = segments front ++ segments back := by
  induction front with
  | nil => simp [segments]
  | cons c rest ih =>
      by_cases hSlash : c = '/'
      · simp [segments, hSlash, ih]
      · cases hRest : segments rest with
        | nil => exact absurd hRest (segments_ne_nil rest)
        | cons first more => simp [segments, hSlash, ih, hRest]

theorem segments_eq_splitOn (cs : List Char) : segments cs = cs.splitOn '/' := by
  induction cs with
  | nil => rfl
  | cons c rest ih =>
      rw [segments, ih, List.splitOn, List.splitOn, List.splitOnP_cons_eq_if_modifyHead]
      by_cases hSlash : c = '/'
      · simp [hSlash]
      · simp only [hSlash, if_false, beq_iff_eq]
        cases hRest : rest.splitOnP (· == '/') with
        | nil => exact absurd hRest (List.splitOnP_ne_nil _ _)
        | cons first more => rfl

end Segments

section Components

theorem componentFault?_eq_none_iff {path : String} {component : List Char} :
    componentFault? path component = none ↔
      component ≠ [] ∧ component ≠ ['.'] ∧ component ≠ ['.', '.'] ∧ '\x00' ∉ component := by
  unfold componentFault?
  split
  next hNil => simp [hNil]
  next hNil =>
    split
    next hDots =>
      rcases hDots with hDots | hDots <;> simp [hDots]
    next hDots =>
      rw [not_or] at hDots
      split
      next hNul => simp [hNul]
      next hNul => simp [hNil, hDots, hNul]

/-- Whether a component has a fault does not depend on the path that it is in. -/
theorem componentFault?_eq_none_congr (path other : String) {component : List Char} :
    componentFault? path component = none ↔ componentFault? other component = none := by
  rw [componentFault?_eq_none_iff, componentFault?_eq_none_iff]

/-- A name that can stand between the slashes of a path. -/
structure Component (name : String) : Prop where
  nonempty : name ≠ ""
  notDot : name ≠ "."
  notDots : name ≠ ".."
  noSlash : '/' ∉ name.toList
  noNul : '\x00' ∉ name.toList

/-- The components are the texts without a slash that have no fault. -/
theorem component_iff (path : String) {name : String} :
    Component name ↔ '/' ∉ name.toList ∧ componentFault? path name.toList = none := by
  have hText : ∀ cs, name.toList ≠ cs ↔ name ≠ String.ofList cs := fun cs =>
    not_congr ⟨fun h => by rw [← h, String.ofList_toList], fun h => by rw [h, String.toList_ofList]⟩
  rw [componentFault?_eq_none_iff, hText, hText, hText]
  constructor
  · intro h
    exact ⟨h.noSlash, h.nonempty, h.notDot, h.notDots, h.noNul⟩
  · rintro ⟨hSlash, hSome, hDot, hDots, hNul⟩
    exact ⟨hSome, hDot, hDots, hSlash, hNul⟩

instance : DecidablePred Component := fun _ => decidable_of_iff' _ (component_iff "")

end Components

/-- The parts of a path between its slashes, before any of them is checked. -/
def parts (cs : List Char) : List (List Char) :=
  if trimBack (trimFront cs) = [] then [] else segments (trimBack (trimFront cs))

theorem slash_not_mem_part {cs part : List Char} (h : part ∈ parts cs) : '/' ∉ part := by
  unfold parts at h
  split at h
  · cases h
  · exact slash_not_mem_segment h

/-- What is behind a slash that is put to the end of a path stands behind the
parts of the path. -/
theorem parts_join {front back : List Char} (hHead : back.head? ≠ some '/') (hSome : back ≠ []) :
    parts (trimBack front ++ '/' :: back) = parts front ++ segments (trimBack back) := by
  have hBack := trimBack_ne_nil hHead hSome
  have hStart : trimFront ('/' :: back) = back := by
    cases back with
    | nil => exact absurd rfl hSome
    | cons c rest =>
        have hSlash : c ≠ '/' := fun h => hHead (by simp [h])
        simp [trimFront, hSlash]
  unfold parts
  rw [trimBack_trimFront front]
  by_cases hFront : trimFront (trimBack front) = []
  · have hJoined : trimFront (trimBack front ++ '/' :: back) = back := by
      have hAppend : trimFront (trimBack front ++ '/' :: back) = trimFront ('/' :: back) := by
        simp only [trimFront] at hFront ⊢
        simp [List.dropWhile_append, hFront]
      rw [hAppend, hStart]
    rw [hJoined, if_neg hBack, if_pos hFront, List.nil_append]
  · have hJoined : trimFront (trimBack front ++ '/' :: back) =
        trimFront (trimBack front) ++ '/' :: back := by
      simp only [trimFront] at hFront ⊢
      simp [List.dropWhile_append, hFront]
    have hLast : trimBack ('/' :: back) = '/' :: trimBack back := by
      rw [trimBack_cons, if_neg (fun h => hBack h.2)]
    have hTrimmed : trimBack (trimFront (trimBack front) ++ '/' :: back) =
        trimFront (trimBack front) ++ '/' :: trimBack back := by
      rw [trimBack_append (by rw [hLast]; exact List.cons_ne_nil _ _), hLast]
    rw [hJoined, hTrimmed, if_neg (List.append_ne_nil_of_right_ne_nil _ (List.cons_ne_nil _ _)),
      if_neg hFront, segments_append]

/-- A text spells names when it is the names with single slashes between them, apart
from the slashes at its ends. Nothing but slashes spells no names. -/
def Spells (text : String) (names : List String) : Prop :=
  trimBack (trimFront text.toList) = ['/'].intercalate (names.map String.toList)

instance (text : String) (names : List String) : Decidable (Spells text names) :=
  inferInstanceAs (Decidable (_ = _))

/-- The names that a text spells are its parts. -/
theorem spells_iff {text : String} {names : List String}
    (hNames : ∀ name ∈ names, Component name) :
    Spells text names ↔ parts text.toList = names.map String.toList := by
  unfold Spells parts
  cases names with
  | nil =>
      rw [List.map_nil, List.intercalate_nil]
      split
      next hTrimmed => simp [hTrimmed]
      next hTrimmed => simp [hTrimmed, segments_ne_nil]
  | cons first more =>
      have hSegments : segments (['/'].intercalate ((first :: more).map String.toList)) =
          (first :: more).map String.toList := by
        rw [segments_eq_splitOn]
        refine List.splitOn_intercalate _ (fun part hPart => ?_) (List.cons_ne_nil _ _)
        obtain ⟨name, hName, rfl⟩ := List.mem_map.mp hPart
        exact (hNames name hName).noSlash
      constructor
      · intro hSpells
        rw [hSpells, hSegments, if_neg]
        intro hNone
        rw [hNone] at hSegments
        have hFirst : [] = first.toList := (List.cons.inj hSegments).1
        exact (hNames first (List.mem_cons_self ..)).nonempty
          (String.toList_eq_nil_iff.mp hFirst.symm)
      · intro hParts
        split at hParts
        · cases hParts
        · rw [← hParts, segments_eq_splitOn, List.intercalate_splitOn]

/-- A path is taken apart when it is absolute and none of its parts has a
fault. -/
theorem split_eq_ok_iff {path : String} {names : List String} :
    split path = .ok names ↔ path.toList.head? = some '/' ∧
      (∀ part ∈ parts path.toList, componentFault? path part = none) ∧
      names = (parts path.toList).map String.ofList := by
  unfold split parts
  by_cases hNil : path.toList = []
  · simp [hNil]
  by_cases hHead : path.toList.head? = some '/'
  · simp only [if_neg hNil, hHead, ne_eq, not_true_eq_false, if_false, true_and]
    split
    next hTrimmed => simp [hTrimmed, eq_comm]
    next trimmed hTrimmed =>
      rw [if_neg hTrimmed]
      cases hFault : (segments (trimBack (trimFront path.toList))).findSome?
          (componentFault? path) with
      | none =>
          rw [List.findSome?_eq_none_iff] at hFault
          simp only [Except.ok.injEq]
          exact ⟨fun h => ⟨hFault, h.symm⟩, fun h => h.2.symm⟩
      | some fault =>
          obtain ⟨part, hPart, hFound⟩ := List.exists_of_findSome?_eq_some hFault
          simp only [reduceCtorEq, false_iff, not_and]
          intro hNone
          rw [hNone part hPart] at hFound
          cases hFound
  · simp [hNil, hHead]

/-- A path is taken apart into its parts when it is absolute and they are components. -/
theorem split_eq_ok_iff_components {path : String} {names : List String} :
    split path = .ok names ↔ path.toList.head? = some '/' ∧
      parts path.toList = names.map String.toList ∧ ∀ name ∈ names, Component name := by
  rw [split_eq_ok_iff]
  refine and_congr_right fun _ => ?_
  constructor
  · rintro ⟨hParts, rfl⟩
    refine ⟨by simp [Function.comp_def], fun name hMem => ?_⟩
    obtain ⟨part, hPart, rfl⟩ := List.mem_map.mp hMem
    rw [component_iff path, String.toList_ofList]
    exact ⟨slash_not_mem_part hPart, hParts part hPart⟩
  · rintro ⟨hParts, hNames⟩
    rw [hParts]
    refine ⟨fun part hPart => ?_, by simp [Function.comp_def]⟩
    obtain ⟨name, hName, rfl⟩ := List.mem_map.mp hPart
    exact ((component_iff path).mp (hNames name hName)).2

theorem component_of_split {path name : String} {names : List String} (h : split path = .ok names)
    (hMem : name ∈ names) : Component name :=
  (split_eq_ok_iff_components.mp h).2.2 name hMem

theorem length_segments_le (cs : List Char) : (segments cs).length ≤ cs.length + 1 := by
  induction cs with
  | nil => simp [segments]
  | cons c rest ih =>
      rw [segments, List.length_cons]
      split
      · rw [List.length_cons]
        omega
      · split
        next hNone => exact absurd hNone (segments_ne_nil rest)
        next s ss hSome =>
          rw [hSome, List.length_cons] at ih
          rw [List.length_cons]
          omega

/-- A path has no more components than characters. -/
theorem length_split_le {path : String} {names : List String} (h : split path = .ok names) :
    names.length ≤ path.length := by
  obtain ⟨hAbsolute, _, rfl⟩ := split_eq_ok_iff.mp h
  rw [List.length_map, ← String.length_toList]
  cases hPath : path.toList with
  | nil => simp [hPath] at hAbsolute
  | cons c rest =>
      rw [hPath, List.head?_cons, Option.some.injEq] at hAbsolute
      subst hAbsolute
      have hFront : (trimFront ('/' :: rest)).length ≤ rest.length := by
        rw [trimFront, List.dropWhile_cons_of_pos (by simp)]
        exact (List.dropWhile_suffix _).length_le
      have hBack : (trimBack (trimFront ('/' :: rest))).length ≤
          (trimFront ('/' :: rest)).length := by
        have hDropped := (List.dropWhile_suffix (· = '/')
          (l := (trimFront ('/' :: rest)).reverse)).length_le
        rw [List.length_reverse] at hDropped
        rwa [trimBack, List.length_reverse]
      have hSegments := length_segments_le (trimBack (trimFront ('/' :: rest)))
      rw [parts, List.length_cons]
      split
      · simp
      · omega

theorem toList_join (parent name : String) :
    (join parent name).toList = trimBack parent.toList ++ '/' :: name.toList := by
  simp [join]

theorem head?_join (parent name : String) :
    (join parent name).toList.head? = some '/' ↔
      parent = "" ∨ parent.toList.head? = some '/' := by
  rw [toList_join, ← String.toList_eq_nil_iff]
  cases hParent : parent.toList with
  | nil => simp [trimBack, trimFront]
  | cons c rest =>
      rw [trimBack_cons]
      by_cases hSlash : c = '/' ∧ trimBack rest = []
      · simp [hSlash]
      · simp [if_neg hSlash]

/-- A new entry may have the name of any component but `.snapshot`. -/
theorem isValidName_iff {name : String} :
    isValidName name = true ↔ Component name ∧ name ≠ snapshotDir := by
  simp only [isValidName, decide_eq_true_eq]
  constructor
  · rintro ⟨hSome, hDot, hDots, hSnapshot, hSlash, hNul⟩
    exact ⟨⟨hSome, hDot, hDots, hSlash, hNul⟩, hSnapshot⟩
  · rintro ⟨h, hSnapshot⟩
    exact ⟨h.nonempty, h.notDot, h.notDots, hSnapshot, h.noSlash, h.noNul⟩

/-- A component of a path may be the name of a new entry unless it is
`.snapshot`. -/
theorem isValidName_of_split {path name : String} {names : List String}
    (h : split path = .ok names) (hMem : name ∈ names) (hPlain : name ≠ snapshotDir) :
    isValidName name = true :=
  isValidName_iff.mpr ⟨component_of_split h hMem, hPlain⟩

/-- A name that may be used has no fault as a component of any path. -/
theorem componentFault?_of_isValidName {name : String} (path : String)
    (hName : isValidName name = true) : componentFault? path name.toList = none :=
  ((component_iff path).mp (isValidName_iff.mp hName).1).2

theorem parts_join_component {name : String} (hName : Component name) (path : String) :
    parts (join path name).toList = parts path.toList ++ [name.toList] := by
  have hNonempty : name.toList ≠ [] := String.toList_eq_nil_iff.not.mpr hName.nonempty
  have hHead : name.toList.head? ≠ some '/' := fun hFirst =>
    hName.noSlash (List.mem_of_head? hFirst)
  rw [toList_join, parts_join hHead hNonempty, trimBack_of_plain hName.noSlash,
    segments_of_plain hName.noSlash]

/-- A path with a component joined to it has the components of the path and then this
one. -/
theorem split_join_component {path name : String} {names : List String}
    (h : split path = .ok names) (hName : Component name) :
    split (join path name) = .ok (names ++ [name]) := by
  obtain ⟨hAbsolute, hParts, hNames⟩ := split_eq_ok_iff_components.mp h
  refine split_eq_ok_iff_components.mpr ⟨(head?_join path name).mpr (.inr hAbsolute), ?_, ?_⟩
  · rw [parts_join_component hName, hParts, List.map_append, List.map_singleton]
  · exact List.forall_mem_append.mpr ⟨hNames, List.forall_mem_singleton.mpr hName⟩

theorem split_join {path name : String} {names : List String} (h : split path = .ok names)
    (hName : isValidName name = true) : split (join path name) = .ok (names ++ [name]) :=
  split_join_component h (isValidName_iff.mp hName).1

/-- Names that may be used are the components of some path. -/
theorem exists_split {names : List String} (h : ∀ name ∈ names, isValidName name = true) :
    ∃ path, split path = .ok names := by
  induction names using List.reverseRecOn with
  | nil => exact ⟨"/", rfl⟩
  | append_singleton names name ih =>
      obtain ⟨path, hPath⟩ := ih fun other hOther => h other (List.mem_append_left _ hOther)
      exact ⟨join path name, split_join hPath (h name (List.mem_append_right _ (by simp)))⟩

section Snapshots
variable {dir name subpath : String} {names : List String}

theorem component_snapshotDir : Component snapshotDir := by
  decide

/-- The path that leads to a place in a snapshot of a directory. -/
def inSnapshot (dir name subpath : String) : String :=
  match trimFront subpath.toList with
  | [] => join (join dir snapshotDir) name
  | rest => join (join (join dir snapshotDir) name) (String.ofList rest)

theorem parts_inSnapshot (hName : isValidName name = true) (dir subpath : String) :
    parts (inSnapshot dir name subpath).toList =
      parts dir.toList ++ snapshotDir.toList :: name.toList :: parts subpath.toList := by
  have hTop : parts (join (join dir snapshotDir) name).toList =
      parts dir.toList ++ [snapshotDir.toList, name.toList] := by
    rw [parts_join_component (isValidName_iff.mp hName).1,
      parts_join_component component_snapshotDir, List.append_assoc]
    rfl
  unfold inSnapshot
  split
  next hNone =>
    have hParts : parts subpath.toList = [] := if_pos (by rw [hNone]; rfl)
    rw [hTop, hParts]
  next hRest =>
    have hHead := head?_trimFront subpath.toList
    have hParts : parts subpath.toList = segments (trimBack (trimFront subpath.toList)) :=
      if_neg (trimBack_ne_nil hHead hRest)
    rw [toList_join, String.toList_ofList, parts_join hHead hRest, hTop, hParts,
      List.append_assoc]
    rfl

theorem head?_inSnapshot :
    (inSnapshot dir name subpath).toList.head? = some '/' ↔
      dir = "" ∨ dir.toList.head? = some '/' := by
  have hDir := head?_join dir snapshotDir
  have hSome : ∀ parent last, join parent last ≠ "" := fun parent last hNone => by
    have hText := toList_join parent last
    simp [hNone] at hText
  unfold inSnapshot
  split
  · rw [head?_join, hDir, or_iff_right (hSome _ _)]
  · rw [head?_join, head?_join, hDir, or_iff_right (hSome _ _), or_iff_right (hSome _ _)]

/-- Such a path has the components of the directory, then `.snapshot` and the name of the
snapshot, and then the parts of the rest. -/
theorem split_inSnapshot_iff (hDir : dir ≠ "") (hName : isValidName name = true) :
    split (inSnapshot dir name subpath) = .ok names ↔ ∃ front, split dir = .ok front ∧
      (∀ part ∈ parts subpath.toList, componentFault? subpath part = none) ∧
      names = front ++ snapshotDir :: name :: (parts subpath.toList).map String.ofList := by
  rw [split_eq_ok_iff, head?_inSnapshot, or_iff_right hDir, parts_inSnapshot hName]
  constructor
  · rintro ⟨hAbsolute, hParts, rfl⟩
    refine ⟨_, split_eq_ok_iff.mpr ⟨hAbsolute, fun part hPart => ?_, rfl⟩, fun part hPart => ?_, ?_⟩
    · exact (componentFault?_eq_none_congr _ dir).mp (hParts part (List.mem_append_left _ hPart))
    · exact (componentFault?_eq_none_congr _ subpath).mp (hParts part (by simp [hPart]))
    · simp
  · rintro ⟨front, hSplit, hRest, rfl⟩
    obtain ⟨hAbsolute, hParts, rfl⟩ := split_eq_ok_iff.mp hSplit
    refine ⟨hAbsolute, fun part hPart => ?_, by simp⟩
    simp only [List.mem_append, List.mem_cons] at hPart
    rcases hPart with hPart | rfl | rfl | hPart
    · exact (componentFault?_eq_none_congr dir _).mp (hParts part hPart)
    · exact ((component_iff _).mp component_snapshotDir).2
    · exact componentFault?_of_isValidName _ hName
    · exact (componentFault?_eq_none_congr subpath _).mp (hRest part hPart)

/-- The path of a snapshot, and any path behind it, goes through `.snapshot` and
the name of the snapshot. -/
theorem names_inSnapshot (hName : isValidName name = true)
    (h : split (inSnapshot dir name subpath) = .ok names) :
    ∃ front below, names = front ++ snapshotDir :: name :: below := by
  have hNames := (split_eq_ok_iff.mp h).2.2
  rw [parts_inSnapshot hName, List.map_append, List.map_cons, List.map_cons,
    String.ofList_toList, String.ofList_toList] at hNames
  exact ⟨_, _, hNames⟩

end Snapshots

end TierTree.Path
