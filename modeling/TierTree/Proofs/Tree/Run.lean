import TierTree.Proofs.Tree.Sound

/-!
Runs of edits. Every tree that edits lead to is sound, and succeeds every tree
that the run came through.
-/

namespace TierTree.Tree

/-- The tree after an edit. A refused edit leaves it as it is. -/
def attempt (t : Tree) (e : Edit) : Except Fault Tree :=
  match t.apply e with
  | .ok (_, later) => .ok later
  | .error (.refused _) => .ok t
  | .error (.fault f) => .error f

/-- The tree after edits in order. -/
def run (t : Tree) (edits : List Edit) : Except Fault Tree := edits.foldlM attempt t

theorem apply_eq_ok_iff {t later : Tree} {e : Edit} {id : NodeId} :
    t.apply e = .ok (id, later) ↔ ∃ p, t.plan e = .ok p ∧ t.execute p = .ok (id, later) := by
  unfold apply
  rw [bind_eq_ok_iff]
  simp only [mapError_eq_ok_iff]

/-- An edit of a sound tree leads to a sound tree that succeeds it, or is
refused, or uses up a counter. -/
theorem apply_spec {t : Tree} (hSound : t.Sound) (e : Edit) :
    (∃ id later, t.apply e = .ok (id, later) ∧ later.Sound ∧ later.Succeeds t) ∨
    (∃ cause, t.apply e = .error (.refused cause)) ∨
    t.apply e = .error (.fault .overflow) := by
  unfold apply
  cases hPlan : t.plan e with
  | error failure =>
      cases failure with
      | refused cause => exact .inr (.inl ⟨cause, rfl⟩)
      | fault f => exact absurd hPlan (plan_ne_fault hSound.live e f)
  | ok p =>
      rcases execute_spec hSound (plan_fits hSound.live hPlan) with
        ⟨id, later, hDone, hLater, hSucceeds⟩ | hFault
      · exact .inl ⟨id, later, mapError_eq_ok_iff.mpr hDone, hLater, hSucceeds⟩
      · exact .inr (.inr (mapError_eq_error_iff.mpr ⟨_, hFault, rfl⟩))

theorem apply_sound {t later : Tree} (hSound : t.Sound) {e : Edit} {id : NodeId}
    (h : t.apply e = .ok (id, later)) : later.Sound ∧ later.Succeeds t := by
  rcases apply_spec hSound e with ⟨id', later', hDone, hResult⟩ | ⟨_, hRefused⟩ | hFault
  · rw [h, Except.ok.injEq, Prod.mk.injEq] at hDone
    exact hDone.2 ▸ hResult
  · rw [h] at hRefused
    cases hRefused
  · rw [h] at hFault
    cases hFault

theorem attempt_spec {t : Tree} (hSound : t.Sound) (e : Edit) :
    (∃ later, t.attempt e = .ok later ∧ later.Sound ∧ later.Succeeds t) ∨
    t.attempt e = .error .overflow := by
  unfold attempt
  rcases apply_spec hSound e with ⟨id, later, hDone, hResult⟩ | ⟨_, hRefused⟩ | hFault
  · exact .inl ⟨later, by rw [hDone], hResult⟩
  · exact .inl ⟨t, by rw [hRefused], hSound, .refl t⟩
  · exact .inr (by rw [hFault])

theorem run_cons (t : Tree) (e : Edit) (rest : List Edit) :
    t.run (e :: rest) = t.attempt e >>= (·.run rest) := List.foldlM_cons ..

theorem run_append (t : Tree) (first second : List Edit) :
    t.run (first ++ second) = t.run first >>= (·.run second) := List.foldlM_append ..

/-- A run from a sound tree ends in a sound tree that succeeds it, or uses up
a counter. -/
theorem run_spec {t : Tree} (hSound : t.Sound) (edits : List Edit) :
    (∃ later, t.run edits = .ok later ∧ later.Sound ∧ later.Succeeds t) ∨
    t.run edits = .error .overflow := by
  induction edits generalizing t with
  | nil => exact .inl ⟨t, rfl, hSound, .refl t⟩
  | cons e rest ih =>
      rw [run_cons]
      rcases attempt_spec hSound e with ⟨next, hNext, hNextSound, hSucceeds⟩ | hFault
      · rw [hNext]
        rcases ih hNextSound with ⟨later, hLater, hLaterSound, hSucceeds'⟩ | hFault
        · exact .inl ⟨later, hLater, hLaterSound, hSucceeds'.trans hSucceeds⟩
        · exact .inr hFault
      · rw [hFault]
        exact .inr rfl

theorem run_sound {t later : Tree} (hSound : t.Sound) {edits : List Edit}
    (h : t.run edits = .ok later) : later.Sound ∧ later.Succeeds t := by
  rcases run_spec hSound edits with ⟨later', hDone, hResult⟩ | hFault
  · rw [h, Except.ok.injEq] at hDone
    exact hDone ▸ hResult
  · rw [h] at hFault
    cases hFault

end TierTree.Tree
