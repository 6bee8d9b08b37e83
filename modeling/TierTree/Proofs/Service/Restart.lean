import TierTree.Proofs.Service.Session

/-!
Restarts. Whatever was done to a service and whatever went wrong with its log,
opening a service over the storage it leaves gives its tree and its number, and
these are the ones of the acknowledged edits.
-/

namespace TierTree.Deployment

/-- Opening a service over what a session leaves, under any configuration that
is valid, gives the tree and the number of the session. -/
def Resumes {J C : Type} [Journal J] [Vault C] (d : Deployment J C) (x : Session J C) : Prop :=
  ∀ config : Config, config.Valid → ∃ s, d.reopen config x.service = .ok s ∧
    s.tree = x.service.tree ∧ s.lastApplied = x.service.lastApplied

section Resumes
variable {J C : Type} [Journal J] [Vault C] [LawfulJournal J] {d : Deployment J C}
  {x : Session J C} {last lost : Txid} {used : List TransactionId}

theorem resumes_of_durable (hLawful : d.Lawful) (h : x.service.Durable last lost used) :
    d.Resumes x := by
  intro config hValid
  obtain ⟨s, hOpen, hTree, hLast, _⟩ := reopen_spec hLawful h hValid
  exact ⟨s, hOpen, hTree, hLast⟩

theorem Faithful.resumes (hLawful : d.Lawful) (h : Faithful x used) : d.Resumes x :=
  resumes_of_durable hLawful h.durable

end Resumes

variable (config : Config) (actions : List Action)

/-- A restart rebuilds the state. Every session ends with a service whose tree
and number come back from the log and the checkpoint it leaves, in memory or in
files, unless a counter is used up. -/
theorem restart_rebuilds (hConfig : config.Valid)
    (hRestarts : ∀ c, .restart c ∈ actions → c.Valid)
    (hDistinct : (actions.filterMap Action.transaction?).Nodup) :
    ((∃ x, inMemory.run config actions = .ok x ∧ inMemory.Resumes x) ∨
      inMemory.run config actions = .error (.fault .overflow)) ∧
    ((∃ x, inFiles.run config actions = .ok x ∧ inFiles.Resumes x) ∨
      inFiles.run config actions = .error (.fault .overflow)) := by
  constructor
  · obtain ⟨_, ⟨x, hRun, hFaithful⟩ | hFault⟩ :=
      run_spec inMemory_lawful hConfig hRestarts hDistinct
    · exact .inl ⟨x, hRun, hFaithful.resumes inMemory_lawful⟩
    · exact .inr hFault
  · obtain ⟨_, ⟨x, hRun, hFaithful⟩ | hFault⟩ :=
      run_spec inFiles_lawful hConfig hRestarts hDistinct
    · exact .inl ⟨x, hRun, hFaithful.resumes inFiles_lawful⟩
    · exact .inr hFault

/-- A directory that was saved and a file that was only logged both come back. -/
theorem restart_rebuilds_behind_save :
    (∃ x, inMemory.run .default [.call ⟨⟨1⟩⟩ (.mkdirs "/a"), .save,
      .call ⟨⟨2⟩⟩ (.createFile "/a/f" none)] = .ok x ∧ inMemory.Resumes x) ∧
    (∃ x, inFiles.run .default [.call ⟨⟨1⟩⟩ (.mkdirs "/a"), .save,
      .call ⟨⟨2⟩⟩ (.createFile "/a/f" none)] = .ok x ∧ inFiles.Resumes x) := by
  have hConfig : Config.default.Valid := ⟨rfl, _, rfl⟩
  obtain ⟨hMemory, hFiles⟩ := restart_rebuilds .default [.call ⟨⟨1⟩⟩ (.mkdirs "/a"), .save,
    .call ⟨⟨2⟩⟩ (.createFile "/a/f" none)] hConfig (by simp) (by decide)
  exact ⟨hMemory.resolve_right nofun, hFiles.resolve_right nofun⟩

/-- Acknowledged edits survive and failed ones leave no trace. However appends
to the log fail in a session, its service has the tree that the acknowledged
edits build, under as many numbers, and so has every service opened from its
files; a call that the storage refuses changes neither tree nor number. No two
calls share a transaction: the second would commit what a failed first one left
in the file. -/
theorem acknowledged_survive (hConfig : config.Valid)
    (hRestarts : ∀ c, .restart c ∈ actions → c.Valid)
    (hDistinct : (actions.filterMap Action.transaction?).Nodup) :
    (∃ x, inFiles.run config actions = .ok x ∧
      Tree.build x.acknowledged = .ok x.service.tree ∧
      x.service.lastApplied.toNat = x.acknowledged.length ∧
      inFiles.Resumes x ∧
      ∀ id c s cause, x.service.call id c = (s, .error (.refused (.storage cause))) →
        s.tree = x.service.tree ∧ s.lastApplied = x.service.lastApplied) ∨
    inFiles.run config actions = .error (.fault .overflow) := by
  obtain ⟨_, ⟨x, hRun, hFaithful⟩ | hFault⟩ :=
    run_spec inFiles_lawful hConfig hRestarts hDistinct
  · exact .inl ⟨x, hRun, hFaithful.built, hFaithful.counted, hFaithful.resumes inFiles_lawful,
      fun _ _ _ _ hCall => Service.call_of_error hCall⟩
  · exact .inr hFault

/-- Between two acknowledged edits, the storage refuses a third one. -/
theorem acknowledged_survive_torn_append :
    ∃ x, inFiles.run .default [.call ⟨⟨1⟩⟩ (.mkdirs "/a"), .disturb (.tornAppendsAfter 1),
        .call ⟨⟨2⟩⟩ (.createFile "/a/f" none), .disturb .never,
        .call ⟨⟨3⟩⟩ (.setPolicy "/a" "COLD")] = .ok x ∧
      x.acknowledged = [.mkdirs "/a", .setPolicy "/a" ⟨4⟩] ∧
      x.service.lastApplied.toNat = 2 ∧ inFiles.Resumes x := by
  have hConfig : Config.default.Valid := ⟨rfl, _, rfl⟩
  obtain ⟨x, hRun, _, hCounted, hResumes, _⟩ := (acknowledged_survive .default
    [.call ⟨⟨1⟩⟩ (.mkdirs "/a"), .disturb (.tornAppendsAfter 1),
      .call ⟨⟨2⟩⟩ (.createFile "/a/f" none), .disturb .never,
      .call ⟨⟨3⟩⟩ (.setPolicy "/a" "COLD")] hConfig (by simp) (by decide)).resolve_right nofun
  have hAcknowledged : x.acknowledged = [.mkdirs "/a", .setPolicy "/a" ⟨4⟩] := by
    cases hRun
    rfl
  exact ⟨x, hRun, hAcknowledged, by rw [hCounted, hAcknowledged]; rfl, hResumes⟩

end TierTree.Deployment
