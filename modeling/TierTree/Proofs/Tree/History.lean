import TierTree.Proofs.Tree.Chronology

/-!
What a timeline reads as. A write is read from its epoch on, and nothing changes
before it. Pruning changes nothing at the epochs it is told to keep, and what was
pruned for some of them can be pruned for fewer of them afterwards.
-/

namespace TierTree.Timeline

/-- A timeline that reads as another one up to an epoch, and from there on shows
what was written at that epoch. -/
structure WrittenFrom (later line : Timeline) (epoch : Epoch) (state : Option Node) : Prop where
  ascending : later.Ascending
  current : later.current = state
  after : ∀ e, epoch ≤ e → later.stateAt e = state
  before : ∀ e, e < epoch → later.stateAt e = line.stateAt e

/-- A timeline that reads as another one now and at some epochs. -/
structure KeptAt (later line : Timeline) (epochs : List Epoch) : Prop where
  nonempty : later.versions ≠ []
  ascending : later.Ascending
  current : later.current = line.current
  kept : ∀ e ∈ epochs, later.stateAt e = line.stateAt e

variable {line : Timeline} {epochs fewer : List Epoch}

theorem write_writtenFrom (h : line.Ascending) {epoch : Epoch} (hWithin : line.latest.since ≤ epoch)
    (state : Option Node) : (line.write epoch state).WrittenFrom line epoch state where
  ascending := (ascending_write_iff h state).mpr hWithin
  current := current_write line epoch state
  after _ hReached := stateAt_write_of_le line state hReached
  before _ hEarly := stateAt_write_of_lt line state hEarly

theorem prune_keptAt (h : line.Ascending) (epochs : List Epoch) :
    (line.prune epochs).KeptAt line epochs where
  nonempty := by simp [versions]
  ascending := by
    have hDated : line.Dated line.latest.since := dated_iff.mpr ⟨h, UInt64.le_refl _⟩
    exact (dated_iff.mp (prune_dated hDated epochs)).1
  current := current_prune line epochs
  kept _ hKept := stateAt_prune hKept line

section Seen
variable {untilEpoch bound : Epoch}

/-- Keeping what is seen at some epochs loses nothing that is seen at fewer of them.
Versions that were dropped in front of the others leave these in force up to `bound`,
and none of the fewer epochs lies in between. -/
theorem seen_seen (hFewer : fewer ⊆ epochs) {versions : List Version}
    (hOrdered : versions.Pairwise (fun v w => w.since < v.since))
    (hBefore : ∀ v ∈ versions, v.since < untilEpoch) (hBound : untilEpoch ≤ bound)
    (hGap : ∀ e ∈ fewer, e < bound → e < untilEpoch) :
    seen fewer bound (seen epochs untilEpoch versions) = seen fewer untilEpoch versions := by
  induction versions generalizing untilEpoch bound with
  | nil => rfl
  | cons v older ih =>
      obtain ⟨hLater, hRest⟩ := List.pairwise_cons.mp hOrdered
      by_cases hSeen : ∃ e ∈ epochs, v.since ≤ e ∧ e < untilEpoch
      · have hOlder := ih hRest hLater (UInt64.le_refl v.since) fun _ _ hEarly => hEarly
        rw [seen_cons_of_seen hSeen]
        by_cases hStill : ∃ e ∈ fewer, v.since ≤ e ∧ e < untilEpoch
        · obtain ⟨e, he, hReached, hEarly⟩ := hStill
          have hInForce : ∃ e ∈ fewer, v.since ≤ e ∧ e < bound :=
            ⟨e, he, hReached, UInt64.lt_of_lt_of_le hEarly hBound⟩
          rw [seen_cons_of_seen hInForce, seen_cons_of_seen ⟨e, he, hReached, hEarly⟩, hOlder]
        · have hNot : ¬ ∃ e ∈ fewer, v.since ≤ e ∧ e < bound := by
            rintro ⟨e, he, hReached, hEarly⟩
            exact hStill ⟨e, he, hReached, hGap e he hEarly⟩
          rw [seen_cons_of_unseen hNot, seen_cons_of_unseen hStill, hOlder]
      · have hNot : ¬ ∃ e ∈ fewer, v.since ≤ e ∧ e < untilEpoch := by
          rintro ⟨e, he, hInForce⟩
          exact hSeen ⟨e, hFewer he, hInForce⟩
        have hFirst : v.since < untilEpoch := hBefore v List.mem_cons_self
        rw [seen_cons_of_unseen hSeen, seen_cons_of_unseen hNot]
        -- the version is dropped both times, and the next one takes its place in the gap
        refine ih hRest hLater (UInt64.le_of_lt (UInt64.lt_of_lt_of_le hFirst hBound)) ?_
        intro e he hEarly
        refine UInt64.not_le.mp fun hReached => ?_
        exact hNot ⟨e, he, hReached, hGap e he hEarly⟩

/-- Which versions are seen depends on the set of epochs, and not on their order. -/
theorem seen_congr {other : List Epoch} (hSame : ∀ e, e ∈ epochs ↔ e ∈ other)
    (untilEpoch : Epoch) (versions : List Version) :
    seen epochs untilEpoch versions = seen other untilEpoch versions := by
  induction versions generalizing untilEpoch with
  | nil => rfl
  | cons v older ih =>
      by_cases hSeen : ∃ e ∈ epochs, v.since ≤ e ∧ e < untilEpoch
      · have hOther : ∃ e ∈ other, v.since ≤ e ∧ e < untilEpoch := by
          simpa only [hSame] using hSeen
        rw [seen_cons_of_seen hSeen, seen_cons_of_seen hOther, ih]
      · have hOther : ¬ ∃ e ∈ other, v.since ≤ e ∧ e < untilEpoch := by
          simpa only [hSame] using hSeen
        rw [seen_cons_of_unseen hSeen, seen_cons_of_unseen hOther, ih]

end Seen

theorem prune_prune (h : line.Ascending) (hFewer : fewer ⊆ epochs) :
    (line.prune epochs).prune fewer = line.prune fewer := by
  obtain ⟨hLater, hRest⟩ := List.pairwise_cons.mp (ascending_iff.mp h)
  have hEarlier : seen fewer line.latest.since (seen epochs line.latest.since line.earlier) =
      seen fewer line.latest.since line.earlier :=
    seen_seen hFewer hRest hLater (UInt64.le_refl _) fun _ _ hEarly => hEarly
  simp only [prune, hEarlier]

theorem prune_congr {other : List Epoch} (hSame : ∀ e, e ∈ epochs ↔ e ∈ other)
    (line : Timeline) : line.prune epochs = line.prune other := by
  simp only [prune, seen_congr hSame]

/-- A timeline whose versions are in order reads as a history. What is written, not
before its newest version, is read from the epoch of the write on, and nothing changes
before. Pruning for a set of epochs, in whatever order they are listed, changes nothing
now and at these epochs, and pruning for fewer of them afterwards comes to pruning for
those alone. -/
theorem reads_as_history (h : line.Ascending) :
    (∀ epoch, line.latest.since ≤ epoch →
      ∀ state, (line.write epoch state).WrittenFrom line epoch state) ∧
    (∀ epochs, (line.prune epochs).KeptAt line epochs) ∧
    (∀ epochs other, (∀ e, e ∈ epochs ↔ e ∈ other) → line.prune epochs = line.prune other) ∧
    ∀ epochs fewer, fewer ⊆ epochs → (line.prune epochs).prune fewer = line.prune fewer :=
  ⟨fun _ hWithin state => write_writtenFrom h hWithin state, prune_keptAt h,
    fun _ _ hSame => prune_congr hSame line, fun _ _ hFewer => prune_prune h hFewer⟩

/-- A file with versions from 0, 2 and 5. A write at 5 takes the place of the last one,
and is not read at 4. What is pruned for 3 and 6, and then for 3 alone, is what is seen
at 3 and the last version. -/
theorem reads_as_history_at_last_epoch :
    ∃ line : Timeline, line.Ascending ∧ line.versions.map (·.since) = [0, 2, 5] ∧
      line.latest.since ≤ 5 ∧ (line.write 5 none).WrittenFrom line 5 none ∧
      (line.prune [3, 6]).KeptAt line [3, 6] ∧ [(3 : Epoch)] ⊆ [3, 6] ∧
      (line.prune [3, 6]).prune [3] = line.prune [3] ∧
      (line.prune [3]).versions.map (·.since) = [2, 5] := by
  obtain ⟨line, hOrdered, hVersions, hWithin, hPruned⟩ : ∃ line : Timeline, line.Ascending ∧
      line.versions.map (·.since) = [0, 2, 5] ∧ line.latest.since ≤ 5 ∧
      (line.prune [3]).versions.map (·.since) = [2, 5] :=
    ⟨⟨⟨5, some (.newFile "c" .root 3)⟩,
        [⟨2, some (.newFile "b" .root 3)⟩, ⟨0, some (.newFile "a" .root 3)⟩]⟩,
      ascending_iff.mpr (by decide), rfl, by decide, by decide⟩
  have hFewer : [(3 : Epoch)] ⊆ [3, 6] := by decide
  obtain ⟨hWrite, hPrune, -, hTwice⟩ := reads_as_history hOrdered
  exact ⟨line, hOrdered, hVersions, hWithin, hWrite 5 hWithin none, hPrune _, hFewer,
    hTwice _ _ hFewer, hPruned⟩

end TierTree.Timeline
