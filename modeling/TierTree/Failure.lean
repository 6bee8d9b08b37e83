/-!
How a call can end without an answer. A refusal has a cause of its own kind
and leaves the caller running; a fault is not answered at all.
-/

namespace TierTree

/-- A call that breaks off. Counters have 64 bits and are never wrapped
around, and a walk over a tree whose links form a cycle has no end. -/
inductive Fault where
  | overflow
  | endless
  deriving DecidableEq, Repr

namespace Fault

def message : Fault → String
  | overflow => "attempt to add with overflow"
  | endless => "the walk never ends"

end Fault

/-- Everything but an answer that a call can end with. -/
inductive Failure (ε : Type) where
  | refused (cause : ε)
  | fault (fault : Fault)
  deriving DecidableEq, Repr

namespace Failure

/-- Reword the cause of a refusal; a fault stays what it is. -/
def map {ε δ : Type} (reword : ε → δ) : Failure ε → Failure δ
  | refused cause => refused (reword cause)
  | fault f => fault f

end Failure

/-- The result of a call that may be refused for a cause in `ε`. -/
abbrev Attempt (ε α : Type) := Except (Failure ε) α

section Outcome
variable {ε δ α β : Type}

/-- A call in two parts answers when both parts do. -/
theorem bind_eq_ok_iff {first : Except ε α} {second : α → Except ε β} {b : β} :
    first >>= second = .ok b ↔ ∃ a, first = .ok a ∧ second a = .ok b := by
  cases first with
  | error e => simp [bind, Except.bind]
  | ok a => simp [bind, Except.bind]

theorem ok_bind {a : α} {second : α → Except ε β} : Except.ok a >>= second = second a := rfl

theorem error_bind {e : ε} {second : α → Except ε β} : Except.error e >>= second = .error e := rfl

theorem map_eq_ok_iff {call : Except ε α} {f : α → β} {b : β} :
    call.map f = .ok b ↔ ∃ a, call = .ok a ∧ f a = b := by
  cases call <;> simp [Except.map]

/-- What each of some steps keeps is kept by all of them in order, if all answer. -/
theorem foldlM_keeps_of_mem {Keeps : β → Prop} {step : β → α → Except ε β} {steps : List α}
    (hStep : ∀ a ∈ steps, ∀ b later, Keeps b → step b a = .ok later → Keeps later)
    {b later : β} (h : steps.foldlM step b = .ok later) (hKeeps : Keeps b) : Keeps later := by
  induction steps generalizing b with
  | nil =>
      cases h
      exact hKeeps
  | cons a rest ih =>
      rw [List.foldlM_cons] at h
      obtain ⟨next, hNext, hRest⟩ := bind_eq_ok_iff.mp h
      exact ih (fun a' hMem => hStep a' (List.mem_cons_of_mem _ hMem)) hRest
        (hStep a List.mem_cons_self b next hKeeps hNext)

/-- What every step keeps is kept by steps in order that all answer. -/
theorem foldlM_keeps {Keeps : β → Prop} {step : β → α → Except ε β}
    (hStep : ∀ b a later, Keeps b → step b a = .ok later → Keeps later) {steps : List α}
    {b later : β} (h : steps.foldlM step b = .ok later) (hKeeps : Keeps b) : Keeps later :=
  foldlM_keeps_of_mem (fun a _ b later => hStep b a later) h hKeeps

@[simp] theorem mapError_ok (reword : ε → δ) (a : α) :
    (Except.ok a).mapError reword = .ok a := rfl

@[simp] theorem mapError_error (reword : ε → δ) (cause : ε) :
    (Except.error cause : Except ε α).mapError reword = .error (reword cause) := rfl

theorem mapError_eq_ok_iff {call : Except ε α} {reword : ε → δ} {a : α} :
    call.mapError reword = .ok a ↔ call = .ok a := by
  cases call <;> simp

theorem mapError_eq_error_iff {call : Except ε α} {reword : ε → δ} {e : δ} :
    call.mapError reword = .error e ↔ ∃ cause, call = .error cause ∧ reword cause = e := by
  cases call <;> simp

end Outcome

/-- The number after `n` in a 64-bit count. -/
def successor (n : UInt64) : Except Fault UInt64 :=
  if n.toNat + 1 < UInt64.size then .ok (n + 1) else .error .overflow

theorem fault_of_successor {n : UInt64} {f : Fault} (h : successor n = .error f) :
    f = .overflow := by
  unfold successor at h
  split at h <;> cases h
  rfl

theorem toNat_of_successor {n m : UInt64} (h : successor n = .ok m) :
    m.toNat = n.toNat + 1 := by
  unfold successor at h
  split at h
  next bound =>
    cases h
    rw [UInt64.toNat_add]
    exact Nat.mod_eq_of_lt bound
  next => cases h

theorem lt_of_successor {n m : UInt64} (h : successor n = .ok m) : n < m := by
  have hValue := toNat_of_successor h
  exact UInt64.lt_iff_toNat_lt.mpr (by omega)

end TierTree
