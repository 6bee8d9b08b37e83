import TierTree.Proofs.Path

/-!
The grammar of paths. The texts that are taken apart are those that are written with
slashes in front, the components with single slashes between them, and any number of
slashes behind. Joining components one by one writes such a text.
-/

namespace TierTree.Path

section Slashes

theorem trimFront_slashes (count : Nat) (cs : List Char) :
    trimFront (List.replicate count '/' ++ cs) = trimFront cs :=
  List.dropWhile_append_of_pos fun _ hMem => by simp [List.eq_of_mem_replicate hMem]

theorem trimBack_slashes (cs : List Char) (count : Nat) :
    trimBack (cs ++ List.replicate count '/') = trimBack cs := by
  rw [trimBack, List.reverse_append, List.reverse_replicate, trimFront_slashes, trimBack]

/-- What is taken off the front are slashes only. -/
theorem exists_slashes_front (cs : List Char) :
    ∃ count, cs = List.replicate count '/' ++ trimFront cs := by
  induction cs with
  | nil => exact ⟨0, rfl⟩
  | cons c rest ih =>
      by_cases hSlash : c = '/'
      · obtain ⟨count, hRest⟩ := ih
        have hDrop : trimFront (c :: rest) = trimFront rest := by simp [trimFront, hSlash]
        refine ⟨count + 1, ?_⟩
        rw [hDrop, List.replicate_succ, List.cons_append, ← hRest, hSlash]
      · exact ⟨0, by simp [trimFront, hSlash]⟩

theorem exists_slashes_back (cs : List Char) :
    ∃ count, cs = trimBack cs ++ List.replicate count '/' := by
  obtain ⟨count, hFront⟩ := exists_slashes_front cs.reverse
  have hBack := congrArg List.reverse hFront
  rw [List.reverse_reverse, List.reverse_append, List.reverse_replicate] at hBack
  exact ⟨count, hBack⟩

end Slashes

/-- Components with single slashes between them. -/
def spelled (names : List String) : List Char := ['/'].intercalate (names.map String.toList)

section Spelled
variable {first : String} {names : List String}

theorem spelled_cons (first : String) {more : List String} (hSome : more ≠ []) :
    spelled (first :: more) = first.toList ++ '/' :: spelled more := by
  rw [spelled, List.map_cons, List.intercalate_cons_of_ne_nil (by simpa using hSome),
    List.append_assoc, List.singleton_append, spelled]

/-- Such a text begins with the first character of its first component. -/
theorem exists_spelled_cons (hFirst : Component first) (more : List String) :
    ∃ c rest, c ≠ '/' ∧ spelled (first :: more) = c :: rest := by
  obtain ⟨c, cs, hChars⟩ : ∃ c cs, first.toList = c :: cs :=
    List.exists_cons_of_ne_nil (String.toList_eq_nil_iff.not.mpr hFirst.nonempty)
  have hSlash : c ≠ '/' := fun hSame => hFirst.noSlash (by simp [hChars, hSame])
  by_cases hSome : more = []
  · exact ⟨c, cs, hSlash, by simp [spelled, hSome, hChars]⟩
  · exact ⟨c, _, hSlash, by rw [spelled_cons first hSome, hChars, List.cons_append]⟩

theorem trimFront_spelled (h : ∀ name ∈ names, Component name) :
    trimFront (spelled names) = spelled names := by
  cases names with
  | nil => rfl
  | cons first more =>
      obtain ⟨c, rest, hSlash, hSpelled⟩ := exists_spelled_cons (h first List.mem_cons_self) more
      simp [hSpelled, trimFront, hSlash]

theorem trimBack_spelled (h : ∀ name ∈ names, Component name) :
    trimBack (spelled names) = spelled names := by
  induction names with
  | nil => rfl
  | cons first more ih =>
      obtain ⟨hFirst, hMore⟩ := List.forall_mem_cons.mp h
      cases more with
      | nil => simpa [spelled] using trimBack_of_plain hFirst.noSlash
      | cons second others =>
          obtain ⟨c, rest, _, hSpelled⟩ :=
            exists_spelled_cons (hMore second List.mem_cons_self) others
          have hRest : trimBack (spelled (second :: others)) ≠ [] := by
            rw [ih hMore, hSpelled]
            exact List.cons_ne_nil _ _
          have hBack : trimBack ('/' :: spelled (second :: others)) =
              '/' :: spelled (second :: others) := by
            rw [trimBack_cons, if_neg fun hEnd => hRest hEnd.2, ih hMore]
          rw [spelled_cons first (List.cons_ne_nil _ _), trimBack_append (by simp [hBack]), hBack]

end Spelled

section Grammar
variable {path : String} {names : List String}

/-- The grammar of a path with these components: slashes, the components with single
slashes between them, and slashes again, of which there may be none. -/
def Writes (path : String) (names : List String) : Prop :=
  (∃ lead trail, path.toList =
    List.replicate (lead + 1) '/' ++ spelled names ++ List.replicate trail '/') ∧
  ∀ name ∈ names, Component name

/-- An absolute text that spells components is one that is written by the grammar. -/
theorem writes_iff : Writes path names ↔
    path.toList.head? = some '/' ∧ Spells path names ∧ ∀ name ∈ names, Component name := by
  constructor
  · rintro ⟨⟨lead, trail, hPath⟩, hNames⟩
    refine ⟨by rw [hPath]; rfl, ?_, hNames⟩
    calc trimBack (trimFront path.toList)
      _ = trimBack (trimFront (spelled names ++ List.replicate trail '/')) := by
        rw [hPath, List.append_assoc, trimFront_slashes]
      _ = trimFront (trimBack (spelled names)) := by rw [trimBack_trimFront, trimBack_slashes]
      _ = spelled names := by rw [trimBack_spelled hNames, trimFront_spelled hNames]
  · rintro ⟨hAbsolute, hSpells, hNames⟩
    obtain ⟨count, hFront⟩ := exists_slashes_front path.toList
    obtain ⟨trail, hBack⟩ := exists_slashes_back (trimFront path.toList)
    rw [hSpells] at hBack
    cases count with
    | zero =>
        rw [List.replicate_zero, List.nil_append] at hFront
        exact absurd (hFront ▸ hAbsolute) (head?_trimFront path.toList)
    | succ lead =>
        refine ⟨⟨lead, trail, ?_⟩, hNames⟩
        rw [hFront, hBack, List.append_assoc]
        rfl

/-- Taking a path apart accepts just what the grammar writes. -/
theorem split_eq_ok_iff_writes : split path = .ok names ↔ Writes path names := by
  rw [split_eq_ok_iff_components, writes_iff]
  refine and_congr_right fun _ => and_congr_left fun hNames => ?_
  exact (spells_iff hNames).symm

/-- The root is the path without components. -/
theorem isRoot_iff : isRoot path = true ↔ split path = .ok [] := by
  rw [split_eq_ok_iff_writes]
  simp only [isRoot, decide_eq_true_eq]
  constructor
  · rintro ⟨hSome, hTrimmed⟩
    obtain ⟨count, hFront⟩ := exists_slashes_front path.toList
    rw [hTrimmed, List.append_nil] at hFront
    cases count with
    | zero => exact absurd hFront hSome
    | succ lead => exact ⟨⟨lead, 0, by simp [hFront, spelled]⟩, nofun⟩
  · rintro ⟨⟨lead, trail, hPath⟩, _⟩
    have hTrail : trimFront (List.replicate trail '/') = [] := by
      rw [← List.append_nil (List.replicate trail '/'), trimFront_slashes]
      rfl
    refine ⟨by simp [hPath, List.replicate_succ], ?_⟩
    rw [hPath, List.append_assoc, trimFront_slashes]
    exact hTrail

/-- Components joined to the root one by one are the components of the path that this
makes. -/
theorem split_foldl_join (h : ∀ name ∈ names, Component name) :
    split (names.foldl join "/") = .ok names := by
  induction names using List.reverseRecOn with
  | nil => rfl
  | append_singleton names name ih =>
      rw [List.foldl_append]
      exact split_join_component (ih fun other hOther => h other (List.mem_append_left _ hOther))
        (h name (List.mem_append_right _ List.mem_cons_self))

/-- Paths are taken apart by their grammar, and joining puts them together again. -/
theorem split_grammar :
    (∀ path names, split path = .ok names ↔ Writes path names) ∧
    (∀ path, isRoot path = true ↔ split path = .ok []) ∧
    (∀ path names name, split path = .ok names → isValidName name = true →
      split (join path name) = .ok (names ++ [name])) ∧
    ∀ names, (∀ name ∈ names, Component name) → split (names.foldl join "/") = .ok names :=
  ⟨fun _ _ => split_eq_ok_iff_writes, fun _ => isRoot_iff, fun _ _ _ => split_join,
    fun _ => split_foldl_join⟩

/-- Slashes at both ends of a path do not count, one too many within it does, and a path is
joined to a name behind any number of them. -/
theorem split_grammar_slashes :
    let path := "//data/größe///"
    split path = .ok ["data", "größe"] ∧ isValidName "..." = true ∧
    split (join path "...") = .ok ["data", "größe", "..."] ∧
    split "/data//größe" = .error (.emptyComponent "/data//größe") ∧
    (∀ name ∈ ["data", ".snapshot", "s"], Component name) ∧
    split (["data", ".snapshot", "s"].foldl join "/") = .ok ["data", ".snapshot", "s"] := by
  intro path
  obtain ⟨hWrites, _, hJoin, hFold⟩ := split_grammar
  have hPath : split path = .ok ["data", "größe"] :=
    (hWrites _ _).mpr ⟨⟨1, 3, by decide⟩, by decide⟩
  have hComponents : ∀ name ∈ ["data", ".snapshot", "s"], Component name := by decide
  exact ⟨hPath, by decide, hJoin _ _ _ hPath (by decide), by decide, hComponents,
    hFold _ hComponents⟩

end Grammar

end TierTree.Path
