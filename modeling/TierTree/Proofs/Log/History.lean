import TierTree.Log.Journal

/-!
What has happened to a log, and what it ought to commit by that. A transaction
counts once its commit is answered, with the payloads of its answered writes,
until a purge reaches its number.
-/

namespace TierTree

/-- A call that a log has answered. -/
inductive Event where
  | began (id : TransactionId)
  | wrote (id : TransactionId) (payload : String)
  | committed (id : TransactionId) (txid : Txid)
  | rolledBack (id : TransactionId)
  | purged (through : Txid)
  | reloaded
  deriving DecidableEq, Repr

/-- The answered calls, the latest one first. -/
abbrev History := List Event

namespace History

/-- The transactions that have begun, also those that are over. -/
def begun : History → List TransactionId
  | [] => []
  | .began id :: h => id :: begun h
  | _ :: h => begun h

/-- The transactions under way. None of them lives through a reload. -/
def inFlight : History → List TransactionId
  | [] => []
  | .began id :: h => id :: inFlight h
  | .wrote _ _ :: h => inFlight h
  | .committed id _ :: h => (inFlight h).filter (· ≠ id)
  | .rolledBack id :: h => (inFlight h).filter (· ≠ id)
  | .purged _ :: h => inFlight h
  | .reloaded :: _ => []

/-- What a transaction has written, in order. -/
def payloads (id : TransactionId) : History → List String
  | [] => []
  | .wrote tx payload :: h => if tx = id then payloads id h ++ [payload] else payloads id h
  | _ :: h => payloads id h

/-- The transactions that count, in the order of their commits. A purge drops
those up to its number, whatever is committed later. -/
def committed : History → List CommittedRecord
  | [] => []
  | .committed id txid :: h => committed h ++ [⟨txid, payloads id h⟩]
  | .purged through :: h => (committed h).filter (through < ·.txid)
  | _ :: h => committed h

/-- Why a transaction may not go on: it is over, or it is not under way here. -/
def refusal? (h : History) (tx : Transaction) : Option TransactionError :=
  if tx.state ≠ .active then some .finalized
  else if tx.id ∈ inFlight h then none
  else some (.unknown tx.id)

theorem begun_of_inFlight {h : History} {id : TransactionId} (hMem : id ∈ inFlight h) :
    id ∈ begun h := by
  induction h with
  | nil => cases hMem
  | cons event earlier ih =>
      cases event with
      | began tx =>
          rcases List.mem_cons.mp hMem with rfl | hBefore
          · exact List.mem_cons_self
          · exact List.mem_cons_of_mem _ (ih hBefore)
      | wrote tx payload => exact ih hMem
      | committed tx txid => exact ih (List.mem_filter.mp hMem).1
      | rolledBack tx => exact ih (List.mem_filter.mp hMem).1
      | purged through => exact ih hMem
      | reloaded => cases hMem

end History

/-- A call to a log. Whatever transaction is at hand may be put into it, also
one of another log or one that is over. -/
inductive LogCall where
  | start (id : TransactionId)
  | write (tx : Transaction) (payload : String)
  | commit (tx : Transaction)
  | rollback (tx : Transaction)
  | purge (through : Txid)
  | reload
  deriving DecidableEq, Repr

/-- The transaction that a call begins. -/
def LogCall.started? : LogCall → Option TransactionId
  | .start id => some id
  | _ => none

/-- A log and the calls it has answered. -/
structure Chronicle (J : Type) where
  log : J
  history : History
  deriving DecidableEq, Repr

namespace Chronicle

variable {J : Type}

/-- Go on with the log that a call leaves. Only an answer is an event. -/
def note {α : Type} (history : History) (event : α → Event) :
    J × Attempt StorageError α → Chronicle J
  | (log, .ok a) => ⟨log, event a :: history⟩
  | (log, .error _) => ⟨log, history⟩

/-- Make a call, where `reload` stores a log and reads it again. -/
def perform [Journal J] (reload : J → J) (x : Chronicle J) : LogCall → Chronicle J
  | .start id => ⟨(Journal.start x.log id).1, .began id :: x.history⟩
  | .write tx payload =>
      note x.history (fun _ => .wrote tx.id payload) (Journal.write x.log tx payload)
  | .commit tx => note x.history (fun a => .committed tx.id a.2) (Journal.commit x.log tx)
  | .rollback tx => note x.history (fun _ => .rolledBack tx.id) (Journal.rollback x.log tx)
  | .purge through => note x.history (fun _ => .purged through) (Journal.purge x.log through)
  | .reload => ⟨reload x.log, .reloaded :: x.history⟩

theorem log_note {α : Type} (history : History) (event : α → Event)
    (outcome : J × Attempt StorageError α) : (note history event outcome).log = outcome.1 := by
  obtain ⟨log, result⟩ := outcome
  cases result <;> rfl

theorem begun_note {α : Type} {history : History} {event : α → Event}
    (h : ∀ a, History.begun (event a :: history) = History.begun history)
    (outcome : J × Attempt StorageError α) :
    History.begun (note history event outcome).history = History.begun history := by
  obtain ⟨log, result⟩ := outcome
  cases result with
  | error e => rfl
  | ok a => exact h a

/-- A call begins no other transaction than its own. -/
theorem begun_perform [Journal J] (reload : J → J) (x : Chronicle J) (call : LogCall) :
    History.begun (x.perform reload call).history =
      call.started?.toList ++ History.begun x.history := by
  cases call with
  | start id => rfl
  | write tx payload => exact begun_note (fun _ => rfl) _
  | commit tx => exact begun_note (fun _ => rfl) _
  | rollback tx => exact begun_note (fun _ => rfl) _
  | purge through => exact begun_note (fun _ => rfl) _
  | reload => rfl

end Chronicle

/-- A property that holds at first, and that is kept by every step whose
transaction has not been used before, holds after steps whose transactions are
distinct. -/
theorem foldl_of_fresh {σ α : Type} {step : σ → α → σ} {started? : α → Option TransactionId}
    (used : σ → List TransactionId) (Inv : σ → Prop)
    (hUsed : ∀ s a, used (step s a) = (started? a).toList ++ used s)
    (hStep : ∀ s a, Inv s → (∀ id ∈ started? a, id ∉ used s) → Inv (step s a))
    {s : σ} {steps : List α} (hInv : Inv s) (hDistinct : (steps.filterMap started?).Nodup)
    (hFresh : ∀ id ∈ steps.filterMap started?, id ∉ used s) : Inv (steps.foldl step s) := by
  induction steps generalizing s with
  | nil => exact hInv
  | cons a rest ih =>
      have hRest : (rest.filterMap started?).Sublist ((a :: rest).filterMap started?) :=
        List.Sublist.filterMap _ (List.sublist_cons_self a rest)
      have hFirst : ∀ id ∈ started? a, id ∉ used s := fun id hId =>
        hFresh id (List.mem_filterMap.mpr ⟨a, List.mem_cons_self, hId⟩)
      apply ih (hStep s a hInv hFirst) (hDistinct.sublist hRest)
      intro id hId hMem
      rw [hUsed, List.mem_append, Option.mem_toList] at hMem
      rcases hMem with hOwn | hBefore
      · rw [List.filterMap_cons_some hOwn, List.nodup_cons] at hDistinct
        exact hDistinct.1 hId
      · exact hFresh id (hRest.subset hId) hBefore

end TierTree
