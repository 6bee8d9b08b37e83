import TierTree.Proofs.Service.Durable

/-!
Calls that ask for an edit. Each of them either answers before anything is
logged and leaves the service as it was, or commits the edit it asks for.
-/

namespace TierTree

/-- A call that asks for an edit. -/
inductive Call where
  | mkdirs (path : String)
  | createFile (path : String) (replication : Option UInt16)
  | delete (path : String) (recursive : Bool)
  | setPolicy (path policyName : String)
  | createSnapshot (path name : String)
  | deleteSnapshot (path name : String)
  deriving DecidableEq, Repr

namespace Service

variable {J C : Type}

/-- The edit that a call asks for, if the policy it names is in force. -/
def request (s : Service J C) : Call → Option Edit
  | .mkdirs path => some (.mkdirs path)
  | .createFile path replication =>
      some (.createFile path (replication.getD s.defaultReplication))
  | .delete path recursive => some (.delete path recursive)
  | .setPolicy path policyName =>
      (s.registry.policyByName policyName).toOption.map fun p => .setPolicy path p.id
  | .createSnapshot path name => some (.createSnapshot path name)
  | .deleteSnapshot path name => some (.deleteSnapshot path name)

/-- The outcome of a call whose answer means that its edit was made. -/
def made {α : Type} (outcome : Service J C × Attempt ServiceError α) :
    Service J C × Attempt ServiceError Bool :=
  (outcome.1, outcome.2.map fun _ => true)

theorem made_map {α β : Type} (outcome : Service J C × Attempt ServiceError α) (f : α → β) :
    made (outcome.1, outcome.2.map f) = made outcome := by
  obtain ⟨s, cause | a⟩ := outcome <;> rfl

/-- An answer that is given before anything is logged: no edit was made, and a
fault is one of planning an edit. -/
def Early (s : Service J C) : Attempt ServiceError Bool → Prop
  | .ok made => made = false
  | .error (.refused _) => True
  | .error (.fault f) => ∃ e, s.tree.plan e = .error (.fault f)

theorem early_of_plan {s : Service J C} {e : Edit} {cause : Failure TreeError}
    (h : s.tree.plan e = .error cause) : s.Early (.error (cause.map .ofTree)) := by
  cases cause with
  | refused cause => trivial
  | fault f => exact ⟨e, h⟩

section Calls
variable [Journal J]

/-- Make a call. The answer says whether an edit was made. -/
def call (s : Service J C) (id : TransactionId) :
    Call → Service J C × Attempt ServiceError Bool
  | .mkdirs path => made (s.mkdirs id path)
  | .createFile path replication => made (s.createFile id path replication)
  | .delete path recursive => s.delete id path recursive
  | .setPolicy path policyName => made (s.setPolicy id path policyName)
  | .createSnapshot path name => made (s.createSnapshot id path name)
  | .deleteSnapshot path name => made (s.deleteSnapshot id path name)

/-- An edit that cannot be planned is answered early, any other is committed. -/
theorem apply_cases (s : Service J C) (id : TransactionId) (e : Edit) :
    (∃ cause, s.tree.plan e = .error cause ∧ s.apply id e = (s, .error (cause.map .ofTree))) ∨
    ∃ p, s.tree.plan e = .ok p ∧ s.apply id e = s.commit id e p := by
  unfold apply
  cases hPlan : s.tree.plan e with
  | error cause => exact .inl ⟨cause, rfl, rfl⟩
  | ok p => exact .inr ⟨p, rfl, rfl⟩

theorem made_apply_cases (s : Service J C) (id : TransactionId) (e : Edit) :
    (∃ result, made (s.apply id e) = (s, result) ∧ s.Early result) ∨
    ∃ p, s.tree.plan e = .ok p ∧ made (s.apply id e) = made (s.commit id e p) := by
  rcases s.apply_cases id e with ⟨cause, hPlan, hApply⟩ | ⟨p, hPlan, hApply⟩
  · exact .inl ⟨_, by rw [hApply]; rfl, early_of_plan hPlan⟩
  · exact .inr ⟨p, hPlan, by rw [hApply]⟩

/-- A call is answered early, or it commits the edit it asks for. -/
theorem call_cases (s : Service J C) (id : TransactionId) (c : Call) :
    (∃ result, s.call id c = (s, result) ∧ s.Early result) ∨
    ∃ e p, s.request c = some e ∧ s.tree.plan e = .ok p ∧
      s.call id c = made (s.commit id e p) := by
  have hMade {e : Edit} (hRequest : s.request c = some e)
      (hCall : s.call id c = made (s.apply id e)) :
      (∃ result, s.call id c = (s, result) ∧ s.Early result) ∨
      ∃ e p, s.request c = some e ∧ s.tree.plan e = .ok p ∧
        s.call id c = made (s.commit id e p) := by
    rw [hCall]
    exact (s.made_apply_cases id e).imp_right fun ⟨p, hPlan, hCommit⟩ =>
      ⟨e, p, hRequest, hPlan, hCommit⟩
  cases c with
  | mkdirs path => exact hMade rfl rfl
  | createFile path replication => exact hMade rfl rfl
  | delete path recursive =>
      simp only [call, delete]
      split
      next cause hPlan => exact .inl ⟨.ok false, rfl, rfl⟩
      next cause _ hPlan => exact .inl ⟨_, rfl, early_of_plan hPlan⟩
      next p hPlan => exact .inr ⟨_, p, rfl, hPlan, rfl⟩
  | setPolicy path policyName =>
      cases hPolicy : s.registry.policyByName policyName with
      | error cause =>
          refine .inl ⟨.error (.refused (.unknownPolicy cause)), ?_, trivial⟩
          simp only [call, setPolicy, hPolicy]
          rfl
      | ok p =>
          refine hMade (e := .setPolicy path p.id) (by simp only [request, hPolicy]; rfl) ?_
          simp only [call, setPolicy, hPolicy]
          exact made_map _ _
  | createSnapshot path name => exact hMade rfl (made_map _ _)
  | deleteSnapshot path name => exact hMade rfl (made_map _ _)

/-- A commit that does not answer changes neither the tree nor its number. -/
theorem commit_of_error {s s' : Service J C} {id : TransactionId} {e : Edit} {p : Plan}
    {failure : Failure ServiceError} (h : s.commit id e p = (s', .error failure)) :
    s'.tree = s.tree ∧ s'.lastApplied = s.lastApplied := by
  rw [commit_eq] at h
  split at h
  · cases h
    exact ⟨rfl, rfl⟩
  · cases h
    exact ⟨rfl, rfl⟩
  · split at h <;> cases h
    exact ⟨rfl, rfl⟩

theorem commit_of_ok {s s' : Service J C} {id : TransactionId} {e : Edit} {p : Plan}
    {node : NodeId} (h : s.commit id e p = (s', .ok node)) :
    s.tree.execute p = .ok (node, s'.tree) := by
  rw [commit_eq] at h
  split at h
  · cases h
  · cases h
  · split at h <;> cases h
    assumption

/-- However a call ends, the tree behind it is sound. -/
theorem call_sound {s : Service J C} (hSound : s.tree.Sound) (id : TransactionId) (c : Call) :
    (s.call id c).1.tree.Sound := by
  rcases s.call_cases id c with ⟨result, hCall, _⟩ | ⟨e, p, _, hPlan, hCall⟩
  · rw [hCall]
    exact hSound
  · rw [hCall]
    rcases hCommit : s.commit id e p with ⟨s', failure | node⟩
    · rw [made, (commit_of_error hCommit).1]
      exact hSound
    · have hApply : s.tree.apply e = .ok (node, s'.tree) :=
        Tree.apply_eq_ok_iff.mpr ⟨p, hPlan, commit_of_ok hCommit⟩
      exact (Tree.apply_sound hSound hApply).1

/-- A call that ends in an error changes neither the tree nor its number. -/
theorem call_of_error {s s' : Service J C} {id : TransactionId} {c : Call}
    {failure : Failure ServiceError} (h : s.call id c = (s', .error failure)) :
    s'.tree = s.tree ∧ s'.lastApplied = s.lastApplied := by
  rcases s.call_cases id c with ⟨result, hCall, _⟩ | ⟨e, p, _, _, hCall⟩
  · rw [hCall] at h
    cases h
    exact ⟨rfl, rfl⟩
  · rw [hCall] at h
    rcases hCommit : s.commit id e p with ⟨s'', cause | node⟩
    · rw [hCommit] at h
      cases h
      exact commit_of_error hCommit
    · rw [hCommit] at h
      cases h

end Calls

section Answers
variable [Journal J] [LawfulJournal J] [Vault C] {s : Service J C} {last lost : Txid}
  {used later : List TransactionId} {id : TransactionId}

theorem Durable.mono (h : s.Durable last lost used) (hUsed : used ⊆ later) :
    s.Durable last lost later := by
  obtain ⟨records, base, covered, hSettled, hRest⟩ := h.stored
  have hLater := LawfulJournal.mono hSettled (UInt64.le_refl _) hUsed
  exact ⟨h.sound, h.within, records, base, covered, hLater, hRest⟩

/-- What a call comes to: its edit is made under the next number of the log, or
nothing is done, or a counter is used up. -/
def Answered (s : Service J C) (c : Call) (last lost : Txid) (used : List TransactionId) :
    Service J C × Attempt ServiceError Bool → Prop
  | (s', .ok true) => ∃ e node, s.request c = some e ∧ s.tree.apply e = .ok (node, s'.tree) ∧
      successor last = .ok s'.lastApplied ∧ s'.Durable s'.lastApplied lost used
  | (s', .ok false) =>
      s'.tree = s.tree ∧ s'.lastApplied = s.lastApplied ∧ s'.Durable last lost used
  | (s', .error (.refused _)) =>
      s'.tree = s.tree ∧ s'.lastApplied = s.lastApplied ∧ s'.Durable last lost used
  | (_, .error (.fault f)) => f = .overflow

theorem Durable.call_spec (h : s.Durable last lost used) (hFresh : id ∉ used) (c : Call) :
    s.Answered c last lost (id :: used) (s.call id c) := by
  have hLater : s.Durable last lost (id :: used) := h.mono (List.subset_cons_self _ _)
  rcases s.call_cases id c with ⟨result, hCall, hEarly⟩ | ⟨e, p, hRequest, hPlan, hCall⟩
  · rw [hCall]
    rcases result with (cause | f) | answer
    · exact ⟨rfl, rfl, hLater⟩
    · obtain ⟨e, hFault⟩ := hEarly
      exact absurd hFault (Tree.plan_ne_fault h.sound.live e f)
    · obtain rfl : answer = false := hEarly
      exact ⟨rfl, rfl, hLater⟩
  · have hCommit := h.commit_spec hFresh hPlan
    rw [hCall]
    generalize s.commit id e p = outcome at hCommit ⊢
    obtain ⟨s', (cause | f) | node⟩ := outcome
    · exact hCommit.2
    · exact hCommit
    · exact ⟨e, node, hRequest, hCommit⟩

end Answers

end Service

end TierTree
