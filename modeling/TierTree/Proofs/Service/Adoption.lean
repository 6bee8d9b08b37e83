import TierTree.Proofs.Log.Mirror
import TierTree.Proofs.Service.Save

/-!
Storage that a service takes over. A log and a checkpoint that were not left
together may be apart in either direction: the log may be behind the checkpoint
or go on beyond it, and others may have transactions under way in it. A service
that can be opened over them numbers its edits above both, and what it leaves is
opened again without a loss.
-/

namespace TierTree

open TierTree.Ledger (commits highest le_highest map_txid_commits settled_of_highest)

namespace Ledger

/-- The commits stand in the order of their numbers. -/
def Ascending (l : Ledger) : Prop :=
  (l.entries.filterMap LogEntry.commitNumber?).Pairwise (· < ·)

instance (l : Ledger) : Decidable l.Ascending := inferInstanceAs (Decidable (List.Pairwise ..))

/-- Every number in a ledger. -/
def numbers (l : Ledger) : List Txid := l.entries.filterMap LogEntry.number?

/-- The transactions that a ledger knows, those under way among them. -/
def known (l : Ledger) : List TransactionId :=
  l.active ++ l.entries.filterMap LogEntry.transaction?

theorem le_last_of_mem_numbers {l : Ledger} (hLatest : highest l.entries = l.lastTxid) {n : Txid}
    (hMem : n ∈ l.numbers) : n ≤ l.lastTxid := by
  obtain ⟨e, hEntry, hNumber⟩ := List.mem_filterMap.mp hMem
  exact hLatest ▸ le_highest hEntry hNumber

/-- A ledger that may have been left by anyone is settled. -/
theorem settled_known {l : Ledger} (hLatest : highest l.entries = l.lastTxid) :
    l.Settled (commits [] l.entries) l.lastTxid l.lastTxid l.known :=
  settled_of_highest hLatest (fun _ hId => List.mem_append_left _ hId) fun e hMem _ hId =>
    List.mem_append_right _ (List.mem_filterMap.mpr ⟨e, hMem, hId⟩)

end Ledger

namespace Service

variable {J C : Type} [Journal J] [Vault C] {config : Config} {log log' : J} {vault : C}
  {s s' : Service J C}

section Open
variable {base later t : Tree} {covered : Txid} {records : List CommittedRecord}

/-- What opening a service has gone through if it is not refused. -/
theorem openOver_eq_ok (h : (openOver config log vault).2 = .ok s) :
    ∃ registry base covered log', prepare config vault = .ok (registry, base, covered) ∧
      catchUp log covered = (log', .ok ()) ∧
      replay config registry log' vault base covered = .ok s := by
  unfold openOver at h
  split at h
  · cases h
  next registry base covered hPrepare =>
    split at h
    · cases h
    next log' hCaughtUp => exact ⟨registry, base, covered, log', hPrepare, hCaughtUp, h⟩

theorem restore_of_prepare {registry : Registry}
    (h : prepare config vault = .ok (registry, base, covered)) :
    restore vault = .ok (base, covered) := by
  unfold prepare at h
  split at h
  · cases h
  · split at h
    · cases h
    · obtain ⟨found, hRestore, hFound⟩ := map_eq_ok_iff.mp h
      cases hFound
      exact hRestore

omit [Vault C] in
theorem replay_eq_ok {registry : Registry}
    (h : replay config registry log vault base covered = .ok s) :
    (Journal.committedSince log covered).foldlM replayRecord base = .ok s.tree ∧
      s.log = log ∧ s.vault = vault ∧
      s.lastApplied =
        ((Journal.committedSince log covered).getLast?.map (·.txid)).getD covered := by
  obtain ⟨tree, hTree, hDone⟩ := bind_eq_ok_iff.mp h
  cases hDone
  exact ⟨hTree, rfl, rfl, rfl⟩

theorem replayPayload_sound {txid : Txid} {payload : String} (hSound : t.Sound)
    (h : replayPayload txid t payload = .ok later) : later.Sound := by
  unfold replayPayload at h
  split at h
  · cases h
  next e hEdit =>
    obtain ⟨⟨node, after⟩, hApply, rfl⟩ := map_eq_ok_iff.mp (mapError_eq_ok_iff.mp h)
    exact (Tree.apply_sound hSound hApply).1

/-- Edits that are made again lead to a sound tree. -/
theorem replay_sound (h : records.foldlM replayRecord t = .ok later) (hSound : t.Sound) :
    later.Sound :=
  foldlM_keeps (fun _ _ _ hHere hRecord =>
    foldlM_keeps (fun _ _ _ => replayPayload_sound) hRecord hHere) h hSound

theorem openOver_sound (h : (openOver config log vault).2 = .ok s)
    (hRestore : restore vault = .ok (base, covered)) (hSound : base.Sound) : s.tree.Sound := by
  obtain ⟨registry, base', covered', log', hPrepare, _, hReplay⟩ := openOver_eq_ok h
  cases hRestore.symm.trans (restore_of_prepare hPrepare)
  exact replay_sound (replay_eq_ok hReplay).1 hSound

end Open

/-- A service that one can come by: it was opened without a checkpoint, or over
one that such a service saves, and was called and saved after that, while
anything may have happened to its storage. -/
inductive Reachable : Service J C → Prop where
  | opened {config : Config} {log : J} {vault : C} {s : Service J C} :
      Vault.load vault = .ok none → (openOver config log vault).2 = .ok s → Reachable s
  | reopened {config : Config} {log : J} {vault : C} {s s' : Service J C} : Reachable s →
      Vault.load vault = .ok (some s.checkpoint) → (openOver config log vault).2 = .ok s' →
      Reachable s'
  | called {s : Service J C} (id : TransactionId) (c : Call) : Reachable s →
      Reachable (s.call id c).1
  | saved {s : Service J C} : Reachable s → Reachable s.save.1
  | stored {s : Service J C} (log : J) (vault : C) : Reachable s →
      Reachable { s with log := log, vault := vault }

theorem Reachable.sound (h : s.Reachable) : s.tree.Sound := by
  induction h with
  | @opened _ _ vault _ hLoad hOpen =>
      have hRestore : restore vault = .ok (.new, 0) := by rw [restore, hLoad]
      exact openOver_sound hOpen hRestore Tree.new_sound
  | reopened _ hLoad hOpen ih => exact openOver_sound hOpen (restore_of_stamp ih hLoad) ih
  | called id c _ ih => exact call_sound ih id c
  | @saved s _ ih =>
      rcases s.save_cases with ⟨vault, cause, _, hSave⟩ | ⟨vault, log, result, _, _, hSave⟩ <;>
        rw [hSave] <;> exact ih
  | stored log vault _ ih => exact ih

section Adopt
variable [LawfulJournal J] {base tree : Tree} {last lost covered purged next : Txid}
  {records rest : List CommittedRecord} {used spent : List TransactionId}

/-- The number of the last record, or of the checkpoint where there is none,
is the highest one. -/
theorem le_latest (hAbove : ∀ r ∈ rest, covered < r.txid)
    (hAscending : (rest.map (·.txid)).Pairwise (· < ·)) :
    let latest := (rest.getLast?.map (·.txid)).getD covered
    covered ≤ latest ∧ (∀ r ∈ rest, r.txid ≤ latest) ∧
      (latest = covered ∨ ∃ r ∈ rest, r.txid = latest) := by
  rcases List.eq_nil_or_concat rest with rfl | ⟨before, r, rfl⟩
  · exact ⟨UInt64.le_refl _, nofun, .inl rfl⟩
  · rw [List.concat_eq_append] at *
    rw [List.map_append, List.pairwise_append] at hAscending
    have hLatest : (((before ++ [r]).getLast?.map (·.txid)).getD covered) = r.txid := by
      rw [List.getLast?_concat]
      rfl
    rw [hLatest]
    refine ⟨UInt64.le_of_lt (hAbove r (by simp)), fun other hMem => ?_, .inr ⟨r, by simp, rfl⟩⟩
    rcases List.mem_append.mp hMem with hBefore | hLast
    · exact UInt64.le_of_lt
        (hAscending.2.2 _ (List.mem_map_of_mem hBefore) _ (List.mem_singleton.mpr rfl))
    · rw [List.mem_singleton.mp hLast]
      exact UInt64.le_refl _

/-- Where the records of a log are in order, those behind a checkpoint rebuild
the tree that they lead to. -/
theorem rebuilds_of_ascending (hAscending : (records.map (·.txid)).Pairwise (· < ·))
    (hReplayed : (records.filter (covered < ·.txid)).foldlM replayRecord base = .ok tree) :
    let latest := ((records.filter (covered < ·.txid)).getLast?.map (·.txid)).getD covered
    Rebuilds base covered records tree latest ∧
      (latest = covered ∨ ∃ r ∈ records, r.txid = latest) := by
  have hAbove : ∀ r ∈ records.filter (covered < ·.txid), covered < r.txid := fun r hMem =>
    of_decide_eq_true (List.mem_filter.mp hMem).2
  have hOrder : ((records.filter (covered < ·.txid)).map (·.txid)).Pairwise (· < ·) :=
    hAscending.sublist (List.filter_sublist.map _)
  obtain ⟨hCovered, hRest, hReached⟩ := le_latest hAbove hOrder
  refine ⟨⟨hCovered, fun r hMem => ?_, hReplayed, rfl⟩,
    hReached.imp_right fun ⟨r, hMem, hLast⟩ => ⟨r, (List.mem_filter.mp hMem).1, hLast⟩⟩
  by_cases hBehind : covered < r.txid
  · exact hRest r (List.mem_filter.mpr ⟨hMem, decide_eq_true hBehind⟩)
  · exact UInt64.le_trans (UInt64.not_lt.mp hBehind) hCovered

/-- A purge of a log that is behind a checkpoint reaches every record. -/
theorem purge_of_behind (hSettled : LawfulJournal.Settled log records last purged used)
    (hBehind : last < covered) :
    Purged LawfulJournal.Settled records last (max purged covered) used covered
      (Journal.purge log covered) := by
  have hMarked := LawfulJournal.mono hSettled (left_le_max purged covered) (List.Subset.refl used)
  refine LawfulJournal.purge_spec hMarked (fun r hMem => ?_) (right_le_max _ _)
  exact UInt64.le_trans (LawfulJournal.le_last hSettled r hMem) (UInt64.le_of_lt hBehind)

/-- A log that was brought up to a checkpoint has no number less than either of
them. If it was behind, its records are gone. -/
theorem catchUp_spec (hSettled : LawfulJournal.Settled log records last purged used)
    (h : catchUp log covered = (log', .ok ())) :
    ∃ kept next, LawfulJournal.Settled log' kept next (max purged covered) used ∧
      kept.Sublist records ∧ last ≤ next ∧ covered ≤ next := by
  rw [catchUp, LawfulJournal.lastTxid_eq hSettled] at h
  split at h
  next hBehind =>
    have hPurged := purge_of_behind hSettled hBehind
    rw [h] at hPurged
    exact ⟨[], _, hPurged, List.nil_sublist _, left_le_max _ _, right_le_max _ _⟩
  next hAhead =>
    cases h
    have hMarked := LawfulJournal.mono hSettled (left_le_max purged covered) (List.Subset.refl _)
    exact ⟨records, last, hMarked, List.Sublist.refl _, UInt64.le_refl _, UInt64.not_lt.mp hAhead⟩

/-- A service that is opened over a log and a checkpoint of any origin numbers
its edits above both, and its storage rebuilds its tree. -/
theorem openOver_adopts (hOpen : (openOver config log vault).2 = .ok s)
    (hSettled : LawfulJournal.Settled log records last purged used)
    (hAscending : (records.map (·.txid)).Pairwise (· < ·))
    (hRestore : restore vault = .ok (base, covered)) (hSound : base.Sound) :
    ∃ next, last ≤ next ∧ covered ≤ next ∧ s.Durable next purged used := by
  have hTree : s.tree.Sound := openOver_sound hOpen hRestore hSound
  obtain ⟨registry, _, _, log', hPrepare, hCaughtUp, hReplay⟩ := openOver_eq_ok hOpen
  cases hRestore.symm.trans (restore_of_prepare hPrepare)
  obtain ⟨hReplayed, rfl, rfl, hApplied⟩ := replay_eq_ok hReplay
  obtain ⟨kept, next, hKept, hSublist, hLast, hCovered⟩ := catchUp_spec hSettled hCaughtUp
  rw [LawfulJournal.committedSince_eq hKept] at hReplayed hApplied
  obtain ⟨hRebuilds, hReached⟩ :=
    rebuilds_of_ascending (hAscending.sublist (hSublist.map _)) hReplayed
  rw [← hApplied] at hRebuilds hReached
  refine ⟨next, hLast, hCovered, hTree, ?_, kept, base, covered, hKept, hRestore, hRebuilds⟩
  rcases hReached with hImage | ⟨r, hMem, hRecord⟩
  · exact hImage ▸ hCovered
  · exact hRecord ▸ LawfulJournal.le_last hKept r hMem

/-- A log that is behind a checkpoint, and that can be brought up to it, is
opened with the tree of the checkpoint. -/
theorem openOver_of_behind (hConfig : config.Valid)
    (hSettled : LawfulJournal.Settled log records last purged used) (hBehind : last < covered)
    (hRestore : restore vault = .ok (base, covered))
    (hPurge : Journal.purge log covered = (log', .ok ())) :
    ∃ registry, openOver config log vault =
      (log', .ok ⟨base, registry, config.defaultReplication, log', vault, covered⟩) := by
  obtain ⟨registry, hPrepare⟩ := prepare_of_restore hConfig hRestore
  have hPurged := purge_of_behind hSettled hBehind
  rw [hPurge] at hPurged
  have hCaughtUp : catchUp log covered = (log', .ok ()) := by
    rw [catchUp, LawfulJournal.lastTxid_eq hSettled, if_pos hBehind, hPurge]
  refine ⟨registry, ?_⟩
  simp only [openOver, hPrepare, hCaughtUp, replay]
  rw [LawfulJournal.committedSince_eq hPurged]
  rfl

theorem Durable.lastTxid_eq (h : s.Durable last lost used) : Journal.lastTxid s.log = last := by
  obtain ⟨_, _, _, hSettled, _⟩ := h.stored
  exact LawfulJournal.lastTxid_eq hSettled

end Adopt

end Service

namespace Site

open Deployment (Ends)

/-- Whatever steps follow a session in which the transactions in `spent` took
place, what is stored behind them resumes the session that they lead to, and a
call whose edit is made then numbers it above all of `numbers` and above every
edit before, unless a counter is used up. -/
def NumbersAbove {J C : Type} [Journal J] [Vault C] (d : Site J C) (x : Session J C)
    (numbers : List Txid) (spent : List TransactionId) : Prop :=
  ∀ steps : List Step, (∀ c, .act (.restart c) ∈ steps → c.Valid) →
    (steps.filterMap Step.transaction?).Nodup →
    (∀ id ∈ steps.filterMap Step.transaction?, id ∉ spent) →
    (∃ y, steps.foldlM d.perform x = .ok y ∧ d.toDeployment.Resumes y ∧
      ∀ id c s, id ∉ steps.filterMap Step.transaction? ++ spent →
        y.service.call id c = (s, .ok true) →
        (∀ n ∈ numbers, n < s.lastApplied) ∧ Journal.lastTxid y.service.log < s.lastApplied ∧
          Journal.lastTxid s.log = s.lastApplied) ∨
    steps.foldlM d.perform x = .error (.fault .overflow)

section Steps
variable {J C : Type} [Journal J] [Vault C] [LawfulJournal J] [LawfulVault C] {d : Site J C}
  {x : Session J C} {last lost : Txid} {numbers : List Txid} {spent : List TransactionId}

/-- The last number of the log never becomes less. -/
theorem foldlM_numbers (hLawful : d.Lawful) {steps : List Step}
    (hRestarts : ∀ c, .act (.restart c) ∈ steps → c.Valid)
    (hDistinct : (steps.filterMap Step.transaction?).Nodup)
    (hFresh : ∀ id ∈ steps.filterMap Step.transaction?, id ∉ spent)
    (h : x.service.Durable last lost spent) :
    Ends (fun y => ∃ next, last ≤ next ∧
        y.service.Durable next lost (steps.filterMap Step.transaction? ++ spent))
      (steps.foldlM d.perform x) := by
  let Inv (y : Session J C) (used : List TransactionId) : Prop :=
    ∃ next, last ≤ next ∧ y.service.Durable next lost used
  have hStart : Inv x spent := ⟨last, UInt64.le_refl _, h⟩
  refine Deployment.foldlM_ends ?_ ?_ hDistinct hFresh hStart
  · rintro y used later ⟨next, hNext, hDurable⟩ hUsed
    exact ⟨next, hNext, hDurable.mono hUsed⟩
  · rintro a hMem y used hNew ⟨next, hNext, hDurable⟩
    refine (perform_spec hLawful (fun c hRestart => hRestarts c (hRestart ▸ hMem)) hNew
      hDurable).imp fun z ⟨further, hAdvance, hLater⟩ => ⟨further, ?_, hLater⟩
    exact UInt64.le_trans hNext hAdvance.le

theorem numbersAbove (hLawful : d.Lawful) (hNumbers : ∀ n ∈ numbers, n ≤ last)
    (h : x.service.Durable last lost spent) : d.NumbersAbove x numbers spent := by
  intro steps hRestarts hDistinct hFresh
  rcases foldlM_numbers hLawful hRestarts hDistinct hFresh h with
    ⟨y, hRun, next, hNext, hDurable⟩ | hFault
  · have hResumes := Deployment.resumes_of_durable hLawful.toLawful hDurable
    refine .inl ⟨y, hRun, hResumes, fun id c s hNew hCall => ?_⟩
    have hAnswered := hDurable.call_spec hNew c
    rw [hCall] at hAnswered
    obtain ⟨e, node, _, _, hSuccessor, hLater⟩ := hAnswered
    have hAbove : next < s.lastApplied := lt_of_successor hSuccessor
    refine ⟨fun n hMem => ?_, hDurable.lastTxid_eq ▸ hAbove, hLater.lastTxid_eq⟩
    exact UInt64.lt_of_le_of_lt (UInt64.le_trans (hNumbers n hMem) hNext) hAbove
  · exact .inr hFault

/-- What is opened over a checkpoint that was saved and a log of any origin
numbers its edits above both. -/
theorem numbersAbove_of_open {J' C' : Type} [Journal J'] [Vault C'] {saved : Service J' C'}
    (hSaved : saved.Reachable) (hLawful : d.Lawful) {config : Config} {log : J} {vault : C}
    {s : Service J C} {records : List CommittedRecord} {purged : Txid}
    (hSettled : LawfulJournal.Settled log records last purged spent)
    (hAscending : (records.map (·.txid)).Pairwise (· < ·)) (hNumbers : ∀ n ∈ numbers, n ≤ last)
    (hLoad : Vault.load vault = .ok (some saved.checkpoint))
    (hOpen : (Service.openOver config log vault).2 = .ok s) :
    d.NumbersAbove ⟨s, []⟩ (saved.lastApplied :: numbers) spent := by
  obtain ⟨next, hLast, hImage, hDurable⟩ := Service.openOver_adopts hOpen hSettled hAscending
    (Service.restore_of_stamp hSaved.sound hLoad) hSaved.sound
  refine numbersAbove hLawful (List.forall_mem_cons.mpr ⟨hImage, fun n hMem => ?_⟩) hDurable
  exact UInt64.le_trans (hNumbers n hMem) hLast

end Steps

/-- No edit that is acknowledged is shadowed by a checkpoint. Whatever service
saved the checkpoint, and whoever left the log, a ledger whose counter is at its
highest number, as every call leaves it, or a file that has been cut back where it
had to be, with commits in order and possibly with transactions under way: if a
service can be opened over both, its edits are numbered above all that it found,
after any further calls, saves and restarts, and opening it again gives its tree
and its number. No two calls share a transaction, and none takes up one that the
log knows. -/
theorem opened_numbers_above {J C : Type} [Journal J] [Vault C] {saved : Service J C}
    (hSaved : saved.Reachable) (config : Config) :
    (∀ (log : Ledger) (slot : CheckpointSlot) (s : MemoryService),
      highest log.entries = log.lastTxid → log.Ascending →
      Vault.load slot = .ok (some saved.checkpoint) →
      (Service.openOver config log slot).2 = .ok s →
      inMemory.NumbersAbove ⟨s, []⟩ (saved.lastApplied :: log.numbers) log.known) ∧
    (∀ (bytes : List UInt8) (steps : List FileStep) (file : CheckpointFile) (s : FileService),
      let x := LogFile.run bytes steps
      LogFile.Distinct bytes steps → x.log.failed = false → x.log.sink.failTruncate = false →
      x.log.ledger.Ascending → Vault.load file = .ok (some saved.checkpoint) →
      (Service.openOver config x.log file).2 = .ok s →
      inFiles.NumbersAbove ⟨s, []⟩ (saved.lastApplied :: x.log.ledger.numbers)
        (LogFile.usedBy bytes x)) := by
  constructor
  · intro log slot s hLatest hAscending hLoad hOpen
    exact numbersAbove_of_open hSaved inMemory_lawful (Ledger.settled_known hLatest)
      (map_txid_commits [] _ ▸ hAscending) (fun _ => Ledger.le_last_of_mem_numbers hLatest) hLoad
      hOpen
  · intro bytes steps file s x hDistinct hIntact hCuts hAscending hLoad hOpen
    obtain ⟨disk, gone, hMirrors⟩ := LogFile.run_mirrors hDistinct
    have hAttached := LogFile.run_attached bytes steps
    exact numbersAbove_of_open hSaved inFiles_lawful (hMirrors.settled hIntact hCuts hAttached)
      (map_txid_commits [] _ ▸ hAscending)
      (fun _ => Ledger.le_last_of_mem_numbers hMirrors.highest_entries) hLoad hOpen

/-- A checkpoint that goes up to 1, beside a ledger that is empty and beside a
file that goes up to 9. -/
theorem opened_numbers_above_older_and_newer :
    let entries : List LogEntry :=
      [.write ⟨⟨3⟩⟩ (Edit.mkdirs "/c").render, .commit ⟨⟨3⟩⟩ 9]
    ∃ saved : MemoryService, saved.Reachable ∧ saved.lastApplied = 1 ∧
      (∃ s s', (Service.openOver .default Ledger.empty ⟨some saved.checkpoint⟩).2 = .ok s ∧
        s.call ⟨⟨2⟩⟩ (.mkdirs "/b") = (s', .ok true) ∧ 1 < s'.lastApplied ∧
        inMemory.NumbersAbove ⟨s, []⟩ [1] []) ∧
      ∃ s, (Service.openOver .default (LogFile.load (Frame.encodeAll entries))
          ⟨some (Utf8.encode saved.checkpoint.render), false⟩).2 = .ok s ∧
        s.lastApplied = 9 ∧ inFiles.NumbersAbove ⟨s, []⟩ [1, 9] [⟨⟨3⟩⟩, ⟨⟨3⟩⟩] := by
  intro entries
  obtain ⟨first, saved, hFirst, hSaved, hApplied, ⟨node, later, hApply⟩, hCall⟩ :
      ∃ first saved : MemoryService,
        (Service.openOver .default Ledger.empty CheckpointSlot.empty).2 = .ok first ∧
        (first.call ⟨⟨1⟩⟩ (.mkdirs "/a")).1 = saved ∧ saved.lastApplied = 1 ∧
        (∃ node later, saved.tree.apply (.mkdirs "/c") = .ok (node, later)) ∧
        ∀ registry (vault : CheckpointSlot), ∃ s',
          (⟨saved.tree, registry, 3, Ledger.empty.purge 1, vault, 1⟩ : MemoryService).call ⟨⟨2⟩⟩
            (.mkdirs "/b") = (s', .ok true) :=
    ⟨_, _, rfl, rfl, rfl, ⟨_, _, rfl⟩, fun _ _ => ⟨_, rfl⟩⟩
  have hConfig : Config.default.Valid := ⟨rfl, _, rfl⟩
  have hReachable : saved.Reachable := hSaved ▸ .called _ _ (.opened rfl hFirst)
  obtain ⟨hMemory, hFiles⟩ := opened_numbers_above hReachable .default
  refine ⟨saved, hReachable, hApplied, ?older, ?newer⟩
  case older =>
    let slot : CheckpointSlot := ⟨some saved.checkpoint⟩
    have hLoad : Vault.load slot = .ok (some saved.checkpoint) :=
      LawfulVault.save_spec CheckpointSlot.empty _ _
    have hRestore := Service.restore_of_stamp hReachable.sound hLoad
    rw [hApplied] at hRestore
    have hEmpty : LawfulJournal.Settled Ledger.empty [] 0 0 [] := Ledger.empty_settled
    have hPurge : Journal.purge Ledger.empty 1 = (Ledger.empty.purge 1, .ok ()) := rfl
    obtain ⟨registry, hOpen⟩ :=
      Service.openOver_of_behind hConfig hEmpty (by decide) hRestore hPurge
    obtain ⟨s', hAnswer⟩ := hCall registry slot
    have hAbove := hMemory _ _ _ rfl (by decide) hLoad (congrArg Prod.snd hOpen)
    rw [hApplied] at hAbove
    obtain ⟨_, ⟨⟩, _, hNext⟩ := (hAbove [] nofun .nil nofun).resolve_right nofun
    exact ⟨_, s', congrArg Prod.snd hOpen, hAnswer,
      (hNext _ _ _ nofun hAnswer).1 1 List.mem_cons_self, hAbove⟩
  case newer =>
    let file : CheckpointFile := ⟨some (Utf8.encode saved.checkpoint.render), false⟩
    have hLoad : Vault.load file = .ok (some saved.checkpoint) :=
      LawfulVault.save_spec (⟨none, false⟩ : CheckpointFile) _ _
    have hRestore := Service.restore_of_stamp hReachable.sound hLoad
    rw [hApplied] at hRestore
    obtain ⟨bytes, hBytes⟩ : ∃ bytes, bytes = Frame.encodeAll entries := ⟨_, rfl⟩
    have hLines : Frame.Lines bytes entries := hBytes ▸ Frame.lines_encodeAll entries
    have hLog : LogFile.load bytes =
        ⟨.reliable bytes, .ofEntries entries, false, false, false, none⟩ :=
      LogFile.load_of_lines hLines
    have hSettled : LawfulJournal.Settled (LogFile.load bytes)
        [⟨9, [(Edit.mkdirs "/c").render]⟩] 9 9 [⟨⟨3⟩⟩, ⟨⟨3⟩⟩] :=
      LogFile.settled_of_lines hLines (Ledger.settled_known rfl)
    have hRebuilds : Service.Rebuilds saved.tree 1 [⟨9, [(Edit.mkdirs "/c").render]⟩] later 9 :=
      (Service.rebuilds_nil saved.tree 1).snoc hApply (by decide)
    obtain ⟨registry, hOpen⟩ :=
      Service.openOver_of_rebuilds hConfig hSettled (by decide) hRestore hRebuilds
    have hAscending : (LogFile.load bytes).ledger.Ascending := by
      rw [hLog]
      exact List.pairwise_singleton _ _
    have hAbove := hFiles bytes [] file _ ⟨.nil, nofun⟩ rfl rfl hAscending hLoad
      (congrArg Prod.snd hOpen)
    have hUsed : LogFile.usedBy bytes (LogFile.run bytes []) = [⟨⟨3⟩⟩, ⟨⟨3⟩⟩] := by
      rw [LogFile.usedBy, hLines.readAll_eq]
      rfl
    have hNumbers : (LogFile.run bytes []).log.ledger.numbers = [9] := by
      show (LogFile.load bytes).ledger.numbers = [9]
      rw [hLog]
      rfl
    rw [hApplied, hUsed, hNumbers] at hAbove
    rw [← hBytes]
    exact ⟨_, congrArg Prod.snd hOpen, rfl, hAbove⟩

end Site

end TierTree
