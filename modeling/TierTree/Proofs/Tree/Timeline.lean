import TierTree.Tree.Timeline

/-!
Timelines as histories. A write changes what is read from its epoch on and
nothing before, and pruning changes nothing at the epochs it is told to keep.
-/

namespace TierTree.Timeline

/-- Versions from new to old, each written later than the next one, and none
after `epoch`. -/
structure Dated (line : Timeline) (epoch : Epoch) : Prop where
  ordered : (line.latest :: line.earlier).Pairwise (fun v w => w.since < v.since)
  within : line.latest.since ≤ epoch

theorem Dated.mono {line : Timeline} {epoch later : Epoch} (h : line.Dated epoch)
    (hLater : epoch ≤ later) : line.Dated later :=
  ⟨h.ordered, UInt64.le_trans h.within hLater⟩

theorem start_dated (since : Epoch) (n : Node) : (start since n).Dated since :=
  ⟨by simp [start], UInt64.le_refl _⟩

@[simp] theorem current_start (since : Epoch) (n : Node) : (start since n).current = some n := rfl

theorem isGone_iff {line : Timeline} :
    line.isGone = true ↔ ∀ v ∈ line.latest :: line.earlier, v.state = none := by
  simp only [isGone, versions, List.all_eq_true, List.mem_reverse, Option.isNone_iff_eq_none]

theorem not_isGone_of_current {line : Timeline} {n : Node} (h : line.current = some n) :
    line.isGone = false := by
  refine Bool.eq_false_iff.mpr fun gone => ?_
  have hNone := isGone_iff.mp gone line.latest (List.mem_cons_self ..)
  rw [current, hNone] at h
  cases h

/-- A timeline without states shows nothing at any epoch. -/
theorem stateAt_of_isGone {line : Timeline} (h : line.isGone = true) (epoch : Epoch) :
    line.stateAt epoch = none := by
  simp only [stateAt, Option.bind_eq_none_iff]
  exact fun v found => isGone_iff.mp h v (List.mem_of_find?_eq_some found)

theorem current_of_isGone {line : Timeline} (h : line.isGone = true) : line.current = none :=
  isGone_iff.mp h line.latest (List.mem_cons_self ..)

/-- At or after the last write, the latest state is the one that is read. -/
theorem stateAt_of_within {line : Timeline} {epoch : Epoch} (h : line.latest.since ≤ epoch) :
    line.stateAt epoch = line.current := by
  simp [stateAt, current, h]

@[simp] theorem current_write (line : Timeline) (epoch : Epoch) (state : Option Node) :
    (line.write epoch state).current = state := by
  unfold write
  split <;> rfl

theorem since_write (line : Timeline) (epoch : Epoch) (state : Option Node) :
    (line.write epoch state).latest.since = epoch := by
  unfold write
  split
  next same => exact same
  next => rfl

/-- What is written at an epoch is read from then on. -/
theorem stateAt_write_of_le (line : Timeline) {epoch later : Epoch} (state : Option Node)
    (h : epoch ≤ later) : (line.write epoch state).stateAt later = state := by
  have hLatest : (line.write epoch state).latest.since ≤ later := by rwa [since_write]
  rw [stateAt_of_within hLatest, current_write]

/-- What was read before the epoch of a write is read afterwards. -/
theorem stateAt_write_of_lt (line : Timeline) {epoch earlier : Epoch} (state : Option Node)
    (h : earlier < epoch) : (line.write epoch state).stateAt earlier = line.stateAt earlier := by
  have hLate : ¬ epoch ≤ earlier := UInt64.not_le.mpr h
  unfold write
  split
  next same => simp [stateAt, same, hLate]
  next => simp [stateAt, hLate]

theorem write_dated {line : Timeline} {epoch : Epoch} (h : line.Dated epoch)
    (state : Option Node) : (line.write epoch state).Dated epoch := by
  refine ⟨?_, UInt64.le_of_eq (since_write line epoch state)⟩
  unfold write
  split
  next => simpa using h.ordered
  next differs =>
    refine List.pairwise_cons.mpr ⟨fun v hv => ?_, h.ordered⟩
    have hLatest : line.latest.since < epoch := UInt64.lt_of_le_of_ne h.within differs
    rcases List.mem_cons.mp hv with rfl | hv
    · exact hLatest
    · exact UInt64.lt_trans ((List.pairwise_cons.mp h.ordered).1 v hv) hLatest

section Seen
variable {epochs : List Epoch} {untilEpoch : Epoch} {v : Version} {older : List Version}

theorem seen_cons_of_seen (h : ∃ e ∈ epochs, v.since ≤ e ∧ e < untilEpoch) :
    seen epochs untilEpoch (v :: older) = v :: seen epochs v.since older := by
  rw [seen, if_pos (by simpa using h)]

theorem seen_cons_of_unseen (h : ¬ ∃ e ∈ epochs, v.since ≤ e ∧ e < untilEpoch) :
    seen epochs untilEpoch (v :: older) = seen epochs v.since older := by
  rw [seen, if_neg (by simpa using h)]

theorem seen_sublist (epochs : List Epoch) (untilEpoch : Epoch) (versions : List Version) :
    (seen epochs untilEpoch versions).Sublist versions := by
  induction versions generalizing untilEpoch with
  | nil => exact .slnil
  | cons v older ih =>
      by_cases hSeen : ∃ e ∈ epochs, v.since ≤ e ∧ e < untilEpoch
      · rw [seen_cons_of_seen hSeen]
        exact (ih _).cons_cons v
      · rw [seen_cons_of_unseen hSeen]
        exact (ih _).cons v

/-- The version in force at a kept epoch is kept. -/
theorem find?_seen {epoch : Epoch} (kept : epoch ∈ epochs) (before : epoch < untilEpoch)
    (versions : List Version) :
    (seen epochs untilEpoch versions).find? (·.since ≤ epoch) =
      versions.find? (·.since ≤ epoch) := by
  induction versions generalizing untilEpoch with
  | nil => rfl
  | cons v older ih =>
      by_cases reached : v.since ≤ epoch
      · rw [seen_cons_of_seen ⟨epoch, kept, reached, before⟩]
        simp [reached]
      · have hRest := ih (UInt64.not_le.mp reached)
        by_cases hSeen : ∃ e ∈ epochs, v.since ≤ e ∧ e < untilEpoch
        · rw [seen_cons_of_seen hSeen]
          simpa [reached] using hRest
        · rw [seen_cons_of_unseen hSeen]
          simpa [reached] using hRest

end Seen

@[simp] theorem current_prune (line : Timeline) (epochs : List Epoch) :
    (line.prune epochs).current = line.current := rfl

theorem stateAt_prune {epochs : List Epoch} {epoch : Epoch} (kept : epoch ∈ epochs)
    (line : Timeline) : (line.prune epochs).stateAt epoch = line.stateAt epoch := by
  by_cases reached : line.latest.since ≤ epoch
  · have hPruned : (line.prune epochs).latest.since ≤ epoch := reached
    rw [stateAt_of_within reached, stateAt_of_within hPruned]
    rfl
  · simp [stateAt, prune, reached, find?_seen kept (UInt64.not_le.mp reached)]

theorem prune_dated {line : Timeline} {epoch : Epoch} (h : line.Dated epoch)
    (epochs : List Epoch) : (line.prune epochs).Dated epoch :=
  ⟨h.ordered.sublist ((seen_sublist ..).cons_cons _), h.within⟩

end TierTree.Timeline
