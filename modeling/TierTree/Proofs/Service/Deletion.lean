import TierTree.Proofs.Service.Reach
import TierTree.Proofs.Tree.Deletion

/-!
What a service answers to a deletion. Where nothing is found at the path the answer
is `false` and nothing is changed, unless the path goes on behind a file, which is
refused. A node that may go is deleted under one new number of the log, and deleting
its path again comes to nothing.
-/

namespace TierTree

namespace Service

variable {J C : Type} [Journal J] {s s' : Service J C} {id : TransactionId} {path : String}
  {names : List String} {recursive : Bool} {target : NodeId} {n : Node} {next : Txid}

/-- A deletion that was made: it is committed once, behind what the log committed before,
under the number that the tree has now, and another one by the same path finds nothing. -/
structure Removes (s s' : Service J C) (path : String) (recursive : Bool) (next : Txid) :
    Prop where
  applied : s'.lastApplied = next
  last : Journal.lastTxid s'.log = next
  journaled : ∀ after, Journal.committedSince s'.log after =
    Journal.committedSince s.log after ++
      if after < next then [⟨next, [(Edit.delete path recursive).render]⟩] else []
  gone : s'.tree.resolve path = .error (.notFound path)
  again : ∀ id recursive, s'.delete id path recursive = (s', .ok false)

/-- What deleting a path comes to in each case, and that there are no others. -/
structure Deletes (s : Service J C) (id : TransactionId) (path : String) (recursive : Bool) :
    Prop where
  cases : s.tree.resolve path = .error (.notFound path) ∨
    s.tree.resolve path = .error (.notADirectory path) ∨
    ∃ target n, s.tree.resolve path = .ok (.node target .live n)
  missing : s.tree.resolve path = .error (.notFound path) →
    s.delete id path recursive = (s, .ok false)
  behindFile : s.tree.resolve path = .error (.notADirectory path) →
    s.delete id path recursive = (s, .error (.refused (.tree (.notADirectory path))))
  notEmpty : ∀ target n, s.tree.resolve path = .ok (.node target .live n) →
    n.childIds ≠ [] → recursive = false →
      s.delete id path recursive = (s, .error (.refused (.tree (.notEmpty path))))
  held : ∀ target n, s.tree.resolve path = .ok (.node target .live n) →
    n.childIds = [] ∨ recursive = true → s.tree.HeldBelow target →
      s.delete id path recursive = (s, .error (.refused (.tree (.hasSnapshots path))))
  made : ∀ target n, s.tree.resolve path = .ok (.node target .live n) →
    n.childIds = [] ∨ recursive = true → ¬ s.tree.HeldBelow target →
      ∀ next, successor (Journal.lastTxid s.log) = .ok next →
        ∃ s', s.delete id path recursive = (s', .ok true) ∧ s.Removes s' path recursive next
  full : ∀ target n, s.tree.resolve path = .ok (.node target .live n) →
    n.childIds = [] ∨ recursive = true → ¬ s.tree.HeldBelow target →
      ∀ f, successor (Journal.lastTxid s.log) = .error f →
        (s.delete id path recursive).2 = .error (.fault .overflow)

/-- A refusal of the tree is handed on, unless nothing was found. -/
theorem delete_of_refused {cause : TreeError}
    (hPlan : s.tree.plan (.delete path recursive) = .error (.refused cause))
    (hOther : ∀ p, cause ≠ .notFound p) :
    s.delete id path recursive = (s, .error (.refused (.tree cause))) := by
  simp only [delete, hPlan]
  cases cause with
  | notFound p => exact absurd rfl (hOther p)
  | _ => rfl

section Deletes
variable (hSound : s.tree.Sound) (hSplit : Path.split path = .ok names) (hSome : names ≠ [])
  (outside : Path.snapshotDir ∉ names)
include hSound hSplit hSome outside

theorem delete_of_missing (hResolve : s.tree.resolve path = .error (.notFound path)) :
    s.delete id path recursive = (s, .ok false) := by
  have hPlan : s.tree.plan (.delete path recursive) = .error (.refused (.notFound path)) :=
    Tree.plan_delete_of_unresolved hSplit hSome outside hSound.live hResolve
  simp only [delete, hPlan]

theorem delete_of_free (hTakes : Journal.TakesIn s.log id)
    (hResolve : s.tree.resolve path = .ok (.node target .live n))
    (hEntries : n.childIds = [] ∨ recursive = true) (hFree : ¬ s.tree.HeldBelow target)
    (hNext : successor (Journal.lastTxid s.log) = .ok next) :
    ∃ s', s.delete id path recursive = (s', .ok true) ∧ s.Removes s' path recursive next := by
  obtain ⟨hHeld, _⟩ | ⟨p, _, hPlan⟩ :=
    Tree.plan_delete_of_resolved hSplit hSome outside hSound.live hResolve hEntries
  · exact absurd hHeld hFree
  obtain ⟨node, later, hDone, hApply⟩ := Tree.exists_apply_of_plan_delete hSound hPlan
  obtain ⟨log, hRecord, hLast, hSince⟩ :=
    hTakes.next (Edit.delete path recursive).render next hNext
  have hGone := Tree.resolve_of_deleted hSound hSplit outside hApply
  have hLater := (Tree.apply_sound hSound hApply).1
  refine ⟨{ s with tree := later, log := log, lastApplied := next }, ?_, ⟨rfl, hLast, hSince, hGone,
    fun id recursive => delete_of_missing hLater hSplit hSome outside hGone⟩⟩
  simp only [delete, hPlan, commit_eq, hRecord, hDone]
  rfl

theorem delete_of_full (hTakes : Journal.TakesIn s.log id)
    (hResolve : s.tree.resolve path = .ok (.node target .live n))
    (hEntries : n.childIds = [] ∨ recursive = true) (hFree : ¬ s.tree.HeldBelow target) {f : Fault}
    (hFull : successor (Journal.lastTxid s.log) = .error f) :
    (s.delete id path recursive).2 = .error (.fault .overflow) := by
  obtain ⟨hHeld, _⟩ | ⟨p, _, hPlan⟩ :=
    Tree.plan_delete_of_resolved hSplit hSome outside hSound.live hResolve hEntries
  · exact absurd hHeld hFree
  obtain ⟨log, hRecord⟩ := hTakes.full (Edit.delete path recursive).render f hFull
  simp only [delete, hPlan, commit_eq, hRecord, fault_of_successor hFull]
  rfl

/-- What deleting a path comes to is decided by what the path resolves to, if the log takes
in what is recorded. -/
theorem deletes_of_takesIn (hTakes : Journal.TakesIn s.log id) :
    s.Deletes id path recursive where
  cases := by
    have hOutside : ∀ names, Path.split path = .ok names → Path.snapshotDir ∉ names :=
      fun names' hSplit' => by cases hSplit.symm.trans hSplit'; exact outside
    cases hResolve : s.tree.resolve path with
    | ok found =>
        cases Tree.finds_of_resolve hSound hSplit hResolve with
        | live => exact .inr (.inr ⟨_, _, rfl⟩)
        | frozen => exact absurd (by simp) outside
        | snapshots => exact absurd (by simp) outside
    | error e =>
        cases (Tree.resolve_eq_error_iff hSound.live hOutside).mp hResolve with
        | malformed bad => cases hSplit.symm.trans bad
        | blocked => exact .inr (.inl rfl)
        | missing => exact .inl rfl
  missing := delete_of_missing hSound hSplit hSome outside
  behindFile hResolve := delete_of_refused
    (Tree.plan_delete_of_unresolved hSplit hSome outside hSound.live hResolve) nofun
  notEmpty _ _ hResolve hEntries hKept := by
    subst hKept
    exact delete_of_refused
      (Tree.plan_delete_notEmpty hSplit hSome outside hSound.live hResolve hEntries) nofun
  held _ _ hResolve hEntries hHeld := by
    obtain ⟨_, hPlan⟩ | ⟨_, hFree, _⟩ :=
      Tree.plan_delete_of_resolved hSplit hSome outside hSound.live hResolve hEntries
    · exact delete_of_refused hPlan nofun
    · exact absurd hHeld hFree
  made _ _ hResolve hEntries hFree _ hNext :=
    delete_of_free hSound hSplit hSome outside hTakes hResolve hEntries hFree hNext
  full _ _ hResolve hEntries hFree _ hFull :=
    delete_of_full hSound hSplit hSome outside hTakes hResolve hEntries hFree hFull

end Deletes

end Service

/-- A log knows nothing of a transaction that is not among its own. -/
theorem Ledger.takesIn_of_unknown {l : Ledger} {id : TransactionId} (h : id ∉ l.known) :
    Journal.TakesIn l id := by
  refine takesIn_of_fresh (fun hActive => h (List.mem_append_left _ hActive)) fun e hMem hId => ?_
  exact h (List.mem_append_right _ (List.mem_filterMap.mpr ⟨e, hMem, hId⟩))

section Storage
variable {path : String} {names : List String}

/-- Deleting a path of a service that one can come by, while its storage does not fail,
in memory and in files. -/
theorem Service.delete_outcomes (hSplit : Path.split path = .ok names) (hSome : names ≠ [])
    (outside : Path.snapshotDir ∉ names) (recursive : Bool) (id : TransactionId) :
    (∀ s : MemoryService, s.Reachable → id ∉ s.log.known → s.Deletes id path recursive) ∧
    ∀ s : FileService, s.Reachable → s.log.Reliable → id ∉ s.log.ledger.known →
      s.Deletes id path recursive :=
  ⟨fun _ hReachable hFresh => deletes_of_takesIn hReachable.sound hSplit hSome outside
      (Ledger.takesIn_of_unknown hFresh),
    fun _ hReachable hLog hFresh => deletes_of_takesIn hReachable.sound hSplit hSome outside
      (LogFile.takesIn_of_reliable hLog (Ledger.takesIn_of_unknown hFresh))⟩

end Storage

/-- A file is deleted, and a directory with a snapshot is not. -/
theorem Service.delete_outcomes_beside_snapshot :
    let actions : List Action := [.call ⟨⟨1⟩⟩ (.mkdirs "/d/e"),
      .call ⟨⟨2⟩⟩ (.createSnapshot "/d" "s"), .call ⟨⟨3⟩⟩ (.createFile "/f" none)]
    (∃ x s, Deployment.inMemory.run .default actions = .ok x ∧
      x.service.delete ⟨⟨4⟩⟩ "/f" false = (s, .ok true) ∧ x.service.Removes s "/f" false 4) ∧
    ∃ x s, Deployment.inFiles.run .default actions = .ok x ∧
      x.service.delete ⟨⟨4⟩⟩ "/f" false = (s, .ok true) ∧ x.service.Removes s "/f" false 4 ∧
      x.service.delete ⟨⟨4⟩⟩ "/d" true =
        (x.service, .error (.refused (.tree (.hasSnapshots "/d")))) := by
  intro actions
  let f : Node := .newFile "f" ⟨1⟩ 3
  let d : Node := (Node.newDirectory "d" (some ⟨1⟩)).mapChildren (·.insert "e" ⟨3⟩)
  have hSplitF : Path.split "/f" = .ok ["f"] := rfl
  have hSplitD : Path.split "/d" = .ok ["d"] := rfl
  have hFile := Service.delete_outcomes hSplitF nofun (by decide) false ⟨⟨4⟩⟩
  have hDirectory := Service.delete_outcomes hSplitD nofun (by decide) true ⟨⟨4⟩⟩
  constructor
  · obtain ⟨x, hRun, hFresh, hNext, hFound, seen, hNone⟩ : ∃ x,
        Deployment.inMemory.run .default actions = .ok x ∧ ⟨⟨4⟩⟩ ∉ x.service.log.known ∧
        successor (Journal.lastTxid x.service.log) = .ok 4 ∧
        x.service.tree.resolve "/f" = .ok (.node ⟨4⟩ .live f) ∧
        x.service.tree.view .live ⟨4⟩ = some f ∧
        x.service.tree.shelf.hasSnapshots ⟨4⟩ = false :=
      ⟨_, rfl, by decide +kernel, rfl, by decide +kernel, by decide +kernel, by decide +kernel⟩
    have hFree : ¬ x.service.tree.HeldBelow ⟨4⟩ := by
      simp [Tree.heldBelow_iff_of_empty seen rfl, hNone]
    obtain ⟨s, hDone, hRemoves⟩ := (hFile.1 _ (Deployment.reachable_of_run rfl hRun) hFresh).made
      _ _ hFound (.inl rfl) hFree _ hNext
    exact ⟨x, s, hRun, hDone, hRemoves⟩
  · obtain ⟨x, hRun, hFresh, hNext, hFound, seen, hNone, hAbove, hHeld⟩ : ∃ x,
        Deployment.inFiles.run .default actions = .ok x ∧ ⟨⟨4⟩⟩ ∉ x.service.log.ledger.known ∧
        successor (Journal.lastTxid x.service.log) = .ok 4 ∧
        x.service.tree.resolve "/f" = .ok (.node ⟨4⟩ .live f) ∧
        x.service.tree.view .live ⟨4⟩ = some f ∧
        x.service.tree.shelf.hasSnapshots ⟨4⟩ = false ∧
        x.service.tree.resolve "/d" = .ok (.node ⟨2⟩ .live d) ∧
        x.service.tree.shelf.hasSnapshots ⟨2⟩ = true :=
      ⟨_, rfl, by decide +kernel, rfl, by decide +kernel, by decide +kernel, by decide +kernel,
        by decide +kernel, by decide +kernel⟩
    have hReachable := Deployment.reachable_of_run rfl hRun
    have hLog := Deployment.reliable_of_run hRun (by simp [actions])
    have hFree : ¬ x.service.tree.HeldBelow ⟨4⟩ := by
      simp [Tree.heldBelow_iff_of_empty seen rfl, hNone]
    obtain ⟨s, hDone, hRemoves⟩ := (hFile.2 _ hReachable hLog hFresh).made _ _ hFound (.inl rfl)
      hFree _ hNext
    exact ⟨x, s, hRun, hDone, hRemoves, (hDirectory.2 _ hReachable hLog hFresh).held _ _ hAbove
      (.inr rfl) ⟨⟨2⟩, .refl _ _, hHeld⟩⟩

/-- A path behind a file leads nowhere, but deleting it is refused instead of coming to
nothing. -/
theorem Service.delete_behind_file_refused :
    ∃ x, Deployment.inFiles.run .default [.call ⟨⟨1⟩⟩ (.createFile "/f" none)] = .ok x ∧
      (∀ found, x.service.tree.resolve "/f/x" ≠ .ok found) ∧
      x.service.delete ⟨⟨2⟩⟩ "/f/x" false =
        (x.service, .error (.refused (.tree (.notADirectory "/f/x")))) := by
  obtain ⟨x, hRun, hNowhere, hPlan⟩ : ∃ x,
      Deployment.inFiles.run .default [.call ⟨⟨1⟩⟩ (.createFile "/f" none)] = .ok x ∧
      x.service.tree.resolve "/f/x" = .error (.notADirectory "/f/x") ∧
      x.service.tree.plan (.delete "/f/x" false) = .error (.refused (.notADirectory "/f/x")) :=
    ⟨_, rfl, by decide +kernel, by decide +kernel⟩
  refine ⟨x, hRun, fun found hFound => ?_, delete_of_refused hPlan nofun⟩
  cases hNowhere.symm.trans hFound

end TierTree
