import TierTree.Proofs.Log.Reliable
import TierTree.Proofs.Service.Adoption

/-!
What sessions come by. A step of a session leads from one service to another by a call,
a save, a restart or a disturbance, so that every service of a session can be come by,
and a log in a file goes on without a failure for as long as nothing disturbs it.
-/

namespace TierTree

namespace Service

variable {J C : Type} [Journal J] (s : Service J C)

/-- However a commit ends, it has recorded its edit in the log, and no checkpoint is made. -/
theorem commit_storage (id : TransactionId) (e : Edit) (p : Plan) :
    (s.commit id e p).1.vault = s.vault ∧
      (s.commit id e p).1.log = (Journal.record s.log id e.render).1 := by
  rw [commit_eq]
  rcases Journal.record s.log id e.render with ⟨log, (cause | f) | txid⟩
  · exact ⟨rfl, rfl⟩
  · exact ⟨rfl, rfl⟩
  · cases s.tree.execute p <;> exact ⟨rfl, rfl⟩

/-- A call leaves its log as it was or has recorded in it, and leaves its checkpoint. -/
theorem call_storage (id : TransactionId) (c : Call) :
    (s.call id c).1.vault = s.vault ∧
      ((s.call id c).1.log = s.log ∨
        ∃ payload, (s.call id c).1.log = (Journal.record s.log id payload).1) := by
  rcases s.call_cases id c with ⟨result, hCall, _⟩ | ⟨e, p, _, _, hCall⟩
  · rw [hCall]
    exact ⟨rfl, .inl rfl⟩
  · rw [hCall]
    obtain ⟨hVault, hLog⟩ := s.commit_storage id e p
    exact ⟨hVault, .inr ⟨_, hLog⟩⟩

end Service

namespace Deployment

variable {J C : Type} [Journal J] [Vault C] {d : Deployment J C} {x y : Session J C}
  {s s' : Service J C} {action : Action}

/-- The service that a step leads to. -/
inductive Moves (d : Deployment J C) (s : Service J C) : Action → Service J C → Prop where
  | call (id : TransactionId) (c : Call) : Moves d s (.call id c) (s.call id c).1
  | save : Moves d s .save s.save.1
  | restart {config : Config} {s' : Service J C} :
      (Service.openOver config (d.reread s.log) s.vault).2 = .ok s' →
      Moves d s (.restart config) s'
  | disturb (plan : FailurePlan) : Moves d s (.disturb plan) { s with log := d.disturb plan s.log }

theorem moves_of_perform (h : d.perform x action = .ok y) : d.Moves x.service action y.service := by
  cases action with
  | call id c =>
      have hMoves := Moves.call (d := d) (s := x.service) id c
      rw [perform] at h
      generalize x.service.call id c = outcome at h hMoves
      obtain ⟨s, (cause | f) | (_ | _)⟩ := outcome <;> cases h <;> exact hMoves
  | save =>
      have hMoves := Moves.save (d := d) (s := x.service)
      rw [perform] at h
      generalize x.service.save = outcome at h hMoves
      obtain ⟨s, (cause | f) | txid⟩ := outcome <;> cases h <;> exact hMoves
  | restart config =>
      obtain ⟨s, hOpen, rfl⟩ := map_eq_ok_iff.mp h
      exact .restart hOpen
  | disturb plan =>
      cases h
      exact .disturb plan

/-- A service that can be come by, over a checkpoint that is missing or that such a service
saves. -/
structure Kept (s : Service J C) : Prop where
  reachable : s.Reachable
  saved : Vault.load s.vault = .ok none ∨
    ∃ saved : Service J C, saved.Reachable ∧ Vault.load s.vault = .ok (some saved.checkpoint)

theorem Kept.step [LawfulVault C] (h : Kept s) (hMoves : d.Moves s action s') : Kept s' := by
  cases hMoves with
  | call id c => exact ⟨h.reachable.called id c, (s.call_storage id c).1 ▸ h.saved⟩
  | save =>
      refine ⟨h.reachable.saved, ?_⟩
      have hSpec := LawfulVault.save_spec s.vault s.lastApplied s.tree.toImage.render
      rcases s.save_cases with ⟨vault, cause, hVault, hSave⟩ | ⟨vault, log, _, hVault, _, hSave⟩ <;>
        rw [Service.checkpoint] at hVault <;> rw [hVault] at hSpec <;> rw [hSave]
      · rw [hSpec]
        exact h.saved
      · exact .inr ⟨s, h.reachable, hSpec⟩
  | restart hOpen =>
      obtain ⟨_, _, _, _, _, _, hReplay⟩ := Service.openOver_eq_ok hOpen
      have hVault : s'.vault = s.vault := (Service.replay_eq_ok hReplay).2.2.1
      refine ⟨?_, hVault ▸ h.saved⟩
      rcases h.saved with hNone | ⟨saved, hSaved, hLoad⟩
      · exact .opened hNone hOpen
      · exact hSaved.reopened hLoad hOpen
  | disturb plan => exact ⟨h.reachable.stored _ _, h.saved⟩

/-- Every service of a session can be come by. -/
theorem reachable_of_run [LawfulVault C] (hVault : Vault.load d.vault = .ok none) {config : Config}
    {actions : List Action} (hRun : d.run config actions = .ok x) : x.service.Reachable := by
  obtain ⟨s, hOpen, hSteps⟩ := bind_eq_ok_iff.mp hRun
  obtain ⟨_, _, _, _, _, _, hReplay⟩ := Service.openOver_eq_ok hOpen
  have hFirst : Kept s :=
    ⟨.opened hVault hOpen, .inl ((Service.replay_eq_ok hReplay).2.2.1 ▸ hVault)⟩
  have hStep (x : Session J C) (action : Action) (y : Session J C) (hHere : Kept x.service)
      (hDone : d.perform x action = .ok y) : Kept y.service :=
    hHere.step (moves_of_perform hDone)
  have hLast : Kept x.service := foldlM_keeps hStep hSteps hFirst
  exact hLast.reachable

section Files
variable {s s' : FileService} {x y : Session LogFile CheckpointFile}

theorem reliable_of_open {config : Config} {log : LogFile} {vault : CheckpointFile}
    (hLog : log.Reliable) (hOpen : (Service.openOver config log vault).2 = .ok s) :
    s.log.Reliable := by
  obtain ⟨_, _, covered, log', _, hCaughtUp, hReplay⟩ := Service.openOver_eq_ok hOpen
  rw [(Service.replay_eq_ok hReplay).2.1]
  rw [Service.catchUp] at hCaughtUp
  split at hCaughtUp
  · have hPurged := LogFile.purge_reliable hLog covered
    rw [hCaughtUp] at hPurged
    exact hPurged
  · cases hCaughtUp
    exact hLog

/-- A log that does not fail goes on as one by every step but a disturbance. -/
theorem reliable_of_moves (hLog : s.log.Reliable) (hMoves : inFiles.Moves s action s')
    (hCalm : ∀ plan, action ≠ .disturb plan) : s'.log.Reliable := by
  cases hMoves with
  | call id c =>
      rcases (s.call_storage id c).2 with hSame | ⟨payload, hRecorded⟩
      · rw [hSame]
        exact hLog
      · rw [hRecorded]
        exact (LogFile.record_byLedger hLog id payload).reliable hLog
  | save =>
      rcases s.save_cases with ⟨vault, cause, _, hSave⟩ | ⟨vault, log, _, _, hPurge, hSave⟩
      · rw [hSave]
        exact hLog
      · have hPurged := LogFile.purge_reliable hLog s.lastApplied
        rw [hPurge] at hPurged
        rw [hSave]
        exact hPurged
  | restart hOpen => exact reliable_of_open (LogFile.reliable_load _) hOpen
  | disturb plan => exact absurd rfl (hCalm plan)

/-- The log of a session in files does not fail if nothing disturbs it. -/
theorem reliable_of_run {config : Config} {actions : List Action}
    (hRun : inFiles.run config actions = .ok x) (hCalm : ∀ plan, .disturb plan ∉ actions) :
    x.service.log.Reliable := by
  obtain ⟨s, hOpen, hSteps⟩ := bind_eq_ok_iff.mp hRun
  have hFirst : s.log.Reliable := reliable_of_open (LogFile.reliable_load []) hOpen
  have hStep : ∀ action ∈ actions, ∀ (x y : Session LogFile CheckpointFile),
      x.service.log.Reliable → inFiles.perform x action = .ok y → y.service.log.Reliable :=
    fun action hMem x y hLog hDone => reliable_of_moves hLog (moves_of_perform hDone)
      fun plan hPlan => hCalm plan (hPlan ▸ hMem)
  exact foldlM_keeps_of_mem hStep hSteps hFirst

end Files

end Deployment

end TierTree
