import Mathlib.Data.List.Induction
import TierTree.Proofs.Log.Disk

/-!
The file of a log and the ledger in memory. The file may hold writes that the
ledger has forgotten, but never one of a transaction that is committed, so both
commit the same transactions as long as no failed append is left in the file.
-/

namespace TierTree.LogFile

open TierTree.Frame (Lines encode readAll)
open TierTree.Ledger (commits highest)

variable {x : Chronicle LogFile} {action : FileStep} {s : FileState} {disk : List LogEntry}
  {gone used : List TransactionId} {id : TransactionId} {e : LogEntry} {bytes left : List UInt8}

/-- Whether an entry stays where the transactions in `gone` are forgotten. -/
def holds (gone : List TransactionId) : LogEntry → Bool
  | .write tx _ => tx ∉ gone
  | _ => true

/-- The file holds the entries `disk`, with what a failed append has left behind
them at most, and the ledger holds the same entries but for the writes of the
transactions in `gone`. All transactions that either of them knows are among
`used`. -/
structure Mirrors (s : FileState) (disk : List LogEntry) (gone used : List TransactionId) :
    Prop where
  held : s.ledger.entries = disk.filter (holds gone)
  idle : ∀ id ∈ gone, id ∉ s.ledger.active
  uncommitted : ∀ id, id ∈ s.ledger.active ∨ id ∈ gone → ∀ txid, .commit id txid ∉ disk
  latest : highest disk = s.ledger.lastTxid
  intact : s.failed = false → Lines s.bytes disk
  known : ∀ id, id ∈ s.ledger.active ∨ id ∈ gone → id ∈ used
  named : ∀ e, e ∈ disk ∨ e ∈ (readAll s.bytes).1 → ∀ id ∈ e.transaction?, id ∈ used

/-- What a failed append leaves is read where it is a whole line. -/
theorem readAll_left {sink : Sink} (h : Lines bytes disk) (hLeaves : Leaves sink e left) :
    ¬ sink.Stuck ∧ (readAll (bytes ++ left)).1 = disk ∨
      sink.Stuck ∧ (readAll (bytes ++ left)).1 = disk ++ [e] := by
  rw [h.readAll_append]
  cases hLeaves with
  | torn hTorn hFree =>
      rw [Frame.readAll_torn hTorn]
      exact .inl ⟨hFree, List.append_nil _⟩
  | whole hWhole hStuck =>
      have hLine : readAll left = ([e], left.length) := by
        rw [hWhole]
        exact (Frame.lines_encode e).readAll_eq
      rw [hLine]
      exact .inr ⟨hStuck, rfl⟩

theorem Mirrors.read_eq (h : Mirrors s disk gone used) (hIntact : s.failed = false) :
    (readAll s.bytes).1 = disk :=
  congrArg Prod.fst (h.intact hIntact).readAll_eq

theorem filter_holds_nil (disk : List LogEntry) : disk.filter (holds []) = disk := by
  apply List.filter_eq_self.mpr
  intro e _
  cases e <;> rfl

theorem Mirrors.entries_subset (h : Mirrors s disk gone used) : s.ledger.entries ⊆ disk := by
  rw [h.held]
  exact List.filter_sublist.subset

theorem Mirrors.highest_entries (h : Mirrors s disk gone used) :
    highest s.ledger.entries = s.ledger.lastTxid := by
  rw [h.held, Ledger.highest_filter, h.latest]
  intro e _ hNumber
  cases e with
  | write tx payload => cases hNumber
  | commit tx txid => rfl
  | checkpoint txid => rfl

/-- What the ledger has forgotten was not committed. -/
theorem Mirrors.commits_entries (h : Mirrors s disk gone used) :
    commits [] s.ledger.entries = commits [] disk := by
  have hWhole : Ledger.Whole disk (· ∉ gone) (fun _ => true) (holds gone) := by
    constructor
    case write =>
      intro tx payload
      rfl
    case commit =>
      intro tx txid hMem
      have hStays : tx ∉ gone := fun hGone => h.uncommitted tx (.inr hGone) txid hMem
      simp [holds, hStays]
  rw [h.held]
  exact Ledger.commits_filter_eq hWhole

namespace Mirrors

theorem mono {later : List TransactionId} (h : Mirrors s disk gone used) (hUsed : used ⊆ later) :
    Mirrors s disk gone later :=
  { h with
    known := fun id hId => hUsed (h.known id hId)
    named := fun e hMem id hId => hUsed (h.named e hMem id hId) }

/-- A transaction that begins is in no file yet. -/
theorem start (h : Mirrors (state x) disk gone used) (hFresh : id ∉ used) :
    Mirrors { state x with
        ledger := (x.log.ledger.start id).1, history := .began id :: x.history }
      disk gone (id :: used) := by
  have hActive : ∀ other, other ∈ (x.log.ledger.start id).1.active →
      other = id ∨ other ∈ x.log.ledger.active := by
    intro other hOther
    rcases List.mem_cons.mp hOther with hSame | hBefore
    · exact .inl hSame
    · exact .inr (List.mem_filter.mp hBefore).1
  constructor
  case held => exact h.held
  case idle =>
    intro other hGone hOther
    rcases hActive other hOther with rfl | hBefore
    · exact hFresh (h.known other (.inr hGone))
    · exact h.idle other hGone hBefore
  case uncommitted =>
    intro other hOther txid hMem
    rcases hOther.imp_left (hActive other) with (rfl | hBefore) | hGone
    · exact hFresh (h.named _ (.inl hMem) other rfl)
    · exact h.uncommitted other (.inl hBefore) txid hMem
    · exact h.uncommitted other (.inr hGone) txid hMem
  case latest => exact h.latest
  case intact => exact h.intact
  case known =>
    intro other hOther
    rcases hOther.imp_left (hActive other) with (rfl | hBefore) | hGone
    · exact List.mem_cons_self
    · exact List.mem_cons_of_mem _ (h.known other (.inl hBefore))
    · exact List.mem_cons_of_mem _ (h.known other (.inr hGone))
  case named =>
    exact fun e hMem other hOther => List.mem_cons_of_mem _ (h.named e hMem other hOther)

section Append

/-- An entry of a transaction under way that is appended is read behind the
others, and no transaction comes to be known by it. -/
theorem appended (h : Mirrors (state x) disk gone used) (hIntact : x.log.failed = false)
    (hId : e.transaction? = some id) (hKnown : id ∈ x.log.ledger.active) :
    Lines (x.log.sink.bytes ++ encode e) (disk ++ [e]) ∧
    ∀ d, d ∈ disk ++ [e] ∨ d ∈ (readAll (x.log.sink.bytes ++ encode e)).1 →
      ∀ other ∈ d.transaction?, other ∈ used := by
  have hLines : Lines (x.log.sink.bytes ++ encode e) (disk ++ [e]) :=
    (h.intact hIntact).append (Frame.lines_encode e)
  refine ⟨hLines, fun d hMem other hOther => ?_⟩
  rw [hLines.readAll_eq, or_self] at hMem
  rcases List.mem_append.mp hMem with hBefore | hNew
  · exact h.named d (.inl hBefore) other hOther
  · rw [List.mem_singleton.mp hNew, hId] at hOther
    cases hOther
    exact h.known id (.inl hKnown)

theorem write (h : Mirrors (state x) disk gone used) (hIntact : x.log.failed = false)
    (hKnown : id ∈ x.log.ledger.active) (payload : String) :
    Mirrors { state x with
        ledger := x.log.ledger.record (.write id payload)
        bytes := x.log.sink.bytes ++ encode (.write id payload)
        history := .wrote id payload :: x.history }
      (disk ++ [.write id payload]) gone used := by
  obtain ⟨hLines, hNamed⟩ := h.appended hIntact (e := .write id payload) rfl hKnown
  have hStays : id ∉ gone := fun hGone => h.idle id hGone hKnown
  constructor
  case held =>
    show x.log.ledger.entries ++ [.write id payload] = _
    rw [List.filter_append, ← show x.log.ledger.entries = disk.filter (holds gone) from h.held]
    simp [holds, hStays]
  case idle => exact h.idle
  case uncommitted =>
    intro other hOther txid hMem
    exact h.uncommitted other hOther txid (Ledger.commit_mem_append_write hMem)
  case latest => exact (Ledger.highest_append_write disk id payload).trans h.latest
  case intact => exact fun _ => hLines
  case known => exact h.known
  case named => exact hNamed

/-- The transaction of a commit is under way, so the ledger has not forgotten any
write of it. -/
theorem commit (h : Mirrors (state x) disk gone used) (hIntact : x.log.failed = false)
    (hKnown : id ∈ x.log.ledger.active) (next : Txid) :
    Mirrors { state x with
        ledger := x.log.ledger.record (.commit id next)
        bytes := x.log.sink.bytes ++ encode (.commit id next)
        history := .committed id next :: x.history }
      (disk ++ [.commit id next]) gone used := by
  obtain ⟨hLines, hNamed⟩ := h.appended hIntact (e := .commit id next) rfl hKnown
  have hActive : ∀ other, other ∈ (x.log.ledger.record (.commit id next)).active →
      other ∈ x.log.ledger.active ∧ other ≠ id := by
    intro other hOther
    obtain ⟨hBefore, hNotOwn⟩ := List.mem_filter.mp hOther
    exact ⟨hBefore, of_decide_eq_true hNotOwn⟩
  constructor
  case held =>
    show x.log.ledger.entries ++ [.commit id next] = _
    rw [List.filter_append, ← show x.log.ledger.entries = disk.filter (holds gone) from h.held]
    rfl
  case idle => exact fun other hGone hOther => h.idle other hGone (hActive other hOther).1
  case uncommitted =>
    intro other hOther txid hMem
    rcases Ledger.commit_mem_append_commit hMem with hBefore | ⟨hOwn, _⟩
    · exact h.uncommitted other (hOther.imp_left fun hIn => (hActive other hIn).1) txid hBefore
    · rcases hOther with hIn | hGone
      · exact (hActive other hIn).2 hOwn
      · exact h.idle id (hOwn ▸ hGone) hKnown
  case latest =>
    show _ = max x.log.ledger.lastTxid next
    rw [Ledger.highest_append_commit, h.latest]
    rfl
  case intact => exact fun _ => hLines
  case known =>
    exact fun other hOther => h.known other (hOther.imp_left fun hIn => (hActive other hIn).1)
  case named => exact hNamed

/-- What a failed append leaves changes nothing in memory. -/
theorem fail (h : Mirrors (state x) disk gone used) (hIntact : x.log.failed = false)
    (hId : e.transaction? = some id) (hKnown : id ∈ x.log.ledger.active)
    (hLeaves : Leaves x.log.sink e left) :
    Mirrors { state x with bytes := x.log.sink.bytes ++ left, failed := true } disk gone used := by
  constructor
  case held => exact h.held
  case idle => exact h.idle
  case uncommitted => exact h.uncommitted
  case latest => exact h.latest
  case intact => exact fun hNot => by cases hNot
  case known => exact h.known
  case named =>
    intro d hMem other hOther
    have hDisk : d ∈ disk ++ [e] := by
      rcases hMem with hBefore | hRead
      · exact List.mem_append_left _ hBefore
      · rcases readAll_left (h.intact hIntact) hLeaves with ⟨_, hSame⟩ | ⟨_, hMore⟩
        · exact List.mem_append_left _ (hSame ▸ hRead)
        · exact hMore ▸ hRead
    rcases List.mem_append.mp hDisk with hBefore | hNew
    · exact h.named d (.inl hBefore) other hOther
    · rw [List.mem_singleton.mp hNew, hId] at hOther
      cases hOther
      exact h.known id (.inl hKnown)

end Append

/-- The writes of a transaction that is given up stay in the file alone. -/
theorem rollback (h : Mirrors (state x) disk gone used) (hKnown : id ∈ x.log.ledger.active) :
    Mirrors { state x with
        ledger := x.log.ledger.discard id, history := .rolledBack id :: x.history }
      disk (id :: gone) used := by
  have hMember : ∀ other, other ∈ (x.log.ledger.discard id).active ∨ other ∈ id :: gone →
      other ∈ x.log.ledger.active ∨ other ∈ gone := by
    intro other hOther
    rcases hOther with hIn | hGone
    · exact .inl (List.mem_filter.mp hIn).1
    · rcases List.mem_cons.mp hGone with rfl | hBefore
      · exact .inl hKnown
      · exact .inr hBefore
  constructor
  case held =>
    show x.log.ledger.entries.filter _ = _
    rw [show x.log.ledger.entries = disk.filter (holds gone) from h.held, List.filter_filter]
    apply List.filter_congr
    intro d _
    cases d with
    | write tx payload => by_cases hSame : tx = id <;> simp [holds, hSame]
    | commit tx txid => rfl
    | checkpoint txid => rfl
  case idle =>
    intro other hGone hOther
    obtain ⟨hBefore, hNotOwn⟩ := List.mem_filter.mp hOther
    rcases List.mem_cons.mp hGone with rfl | hOld
    · exact of_decide_eq_true hNotOwn rfl
    · exact h.idle other hOld hBefore
  case uncommitted => exact fun other hOther => h.uncommitted other (hMember other hOther)
  case latest => exact h.latest
  case intact => exact h.intact
  case known => exact fun other hOther => h.known other (hMember other hOther)
  case named => exact h.named

theorem active_purge (h : Mirrors (state x) disk gone used) (through : Txid) :
    (x.log.ledger.purge through).active = x.log.ledger.active := by
  apply Ledger.active_purge
  intro other hOther txid hMem
  exact h.uncommitted other (.inl hOther) txid (h.entries_subset hMem)

/-- A new file has the entries of the ledger, and nothing that it has forgotten. -/
theorem purge {through : Txid} (h : Mirrors (state x) disk gone used)
    (hLines : Lines bytes (x.log.ledger.purgedEntries through)) :
    Mirrors {
        ledger := x.log.ledger.purge through
        bytes := bytes
        failed := false
        history := .purged through :: x.history }
      (x.log.ledger.purgedEntries through) [] used := by
  have hEntries : x.log.ledger.entries ⊆ disk := h.entries_subset
  constructor
  case held => rw [filter_holds_nil, Ledger.entries_purge]
  case idle => exact fun other hGone => by cases hGone
  case uncommitted =>
    intro other hOther txid hMem
    rw [h.active_purge] at hOther
    rcases hOther with hIn | hGone
    · exact h.uncommitted other (.inl hIn) txid (hEntries (Ledger.commit_mem_of_purged hMem))
    · cases hGone
  case latest => exact Ledger.highest_purge h.highest_entries through
  case intact => exact fun _ => hLines
  case known =>
    intro other hOther
    rw [h.active_purge] at hOther
    rcases hOther with hIn | hGone
    · exact h.known other (.inl hIn)
    · cases hGone
  case named =>
    intro d hMem other hOther
    rw [hLines.readAll_eq, or_self] at hMem
    rcases Ledger.mem_purgedEntries hMem with ⟨txid, hCheckpoint⟩ | hBefore
    · rw [hCheckpoint] at hOther
      cases hOther
    · exact h.named d (.inl (hEntries hBefore)) other hOther

/-- A log that is opened mirrors its file, whatever was in it. -/
theorem opened {history : History} (bytes : List UInt8)
    (hUsed : ∀ e ∈ (readAll bytes).1, ∀ id ∈ e.transaction?, id ∈ used) :
    Mirrors {
        ledger := .ofEntries (readAll bytes).1
        bytes := bytes.take (readAll bytes).2
        failed := false
        history := history }
      (readAll bytes).1 [] used := by
  have hLines := Frame.lines_readAll bytes
  have hNone : (Ledger.ofEntries (readAll bytes).1).active = [] := Ledger.active_ofEntries _
  constructor
  case held => rw [filter_holds_nil, Ledger.entries_ofEntries]
  case idle => exact fun other hGone => by cases hGone
  case uncommitted =>
    intro other hOther
    rw [hNone] at hOther
    rcases hOther with hIn | hGone
    · cases hIn
    · cases hGone
  case latest => exact (Ledger.lastTxid_ofEntries _).symm
  case intact => exact fun _ => hLines
  case known =>
    intro other hOther
    rw [hNone] at hOther
    rcases hOther with hIn | hGone
    · cases hIn
    · cases hGone
  case named =>
    intro e hMem
    rw [hLines.readAll_eq, or_self] at hMem
    exact hUsed e hMem

/-- Every step goes on with a log that mirrors its file. -/
theorem moves (h : Mirrors (state x) disk gone used)
    (hFresh : ∀ id ∈ action.started?, id ∉ used) (hMoves : Moves x action s) :
    ∃ disk gone, Mirrors s disk gone (action.started?.toList ++ used) := by
  have hMore : used ⊆ action.started?.toList ++ used := List.subset_append_right _ _
  cases hMoves with
  | idle => exact ⟨disk, gone, h.mono hMore⟩
  | start hId =>
      rw [hId]
      exact ⟨disk, gone, h.start (hFresh _ hId)⟩
  | write hIntact hKnown => exact ⟨_, gone, (h.write hIntact hKnown _).mono hMore⟩
  | commit hIntact hKnown => exact ⟨_, gone, (h.commit hIntact hKnown _).mono hMore⟩
  | fail hIntact _ hId hKnown hLeaves =>
      exact ⟨disk, gone, (h.fail hIntact hId hKnown hLeaves).mono hMore⟩
  | rollback hKnown => exact ⟨disk, _, (h.rollback hKnown).mono hMore⟩
  | purge hLines => exact ⟨_, [], (h.purge hLines).mono hMore⟩
  | reload => exact ⟨_, [], (opened _ fun e hMem => h.named e (.inr hMem)).mono hMore⟩

end Mirrors

section Run
variable {steps : List FileStep}

/-- The log after steps in order, opened first from a file with these bytes. -/
def run (bytes : List UInt8) (steps : List FileStep) : Chronicle LogFile :=
  steps.foldl step ⟨load bytes, []⟩

theorem run_append (bytes : List UInt8) (steps more : List FileStep) :
    run bytes (steps ++ more) = more.foldl step (run bytes steps) :=
  List.foldl_append

theorem run_snoc (bytes : List UInt8) (steps : List FileStep) (action : FileStep) :
    run bytes (steps ++ [action]) = step (run bytes steps) action :=
  run_append bytes steps [action]

theorem run_attached (bytes : List UInt8) (steps : List FileStep) :
    (run bytes steps).log.Attached := by
  induction steps using List.reverseRecOn with
  | nil => exact ⟨rfl, rfl⟩
  | append_singleton rest last ih =>
      rw [run_snoc]
      exact step_attached ih last

theorem run_moves (bytes : List UInt8) (steps : List FileStep) (last : FileStep) :
    Moves (run bytes steps) last (state (run bytes (steps ++ [last]))) := by
  rw [run_snoc]
  exact step_spec (run_attached bytes steps) last

/-- Steps whose transactions are distinct, and none of them is named in the
file at first. -/
structure Distinct (bytes : List UInt8) (steps : List FileStep) : Prop where
  once : (steps.filterMap FileStep.started?).Nodup
  fresh : ∀ id ∈ steps.filterMap FileStep.started?,
    ∀ e ∈ (load bytes).ledger.entries, e.transaction? ≠ some id

/-- The transactions that a log has come to know. -/
def usedBy (bytes : List UInt8) (x : Chronicle LogFile) : List TransactionId :=
  History.begun x.history ++ (readAll bytes).1.filterMap LogEntry.transaction?

theorem usedBy_step (bytes : List UInt8) (x : Chronicle LogFile) (action : FileStep) :
    usedBy bytes (step x action) = action.started?.toList ++ usedBy bytes x := by
  have hBegun : History.begun (step x action).history =
      action.started?.toList ++ History.begun x.history := by
    cases action with
    | call c => exact Chronicle.begun_perform reload x c
    | disturb plan failTruncate => rfl
    | block blocked => rfl
  rw [usedBy, hBegun, List.append_assoc]
  rfl

theorem entries_load (bytes : List UInt8) : (load bytes).ledger.entries = (readAll bytes).1 :=
  Ledger.entries_ofEntries _

theorem Distinct.not_used (h : Distinct bytes steps) :
    ∀ id ∈ steps.filterMap FileStep.started?, id ∉ usedBy bytes ⟨load bytes, []⟩ := by
  intro id hId hMem
  obtain ⟨e, hEntry, hNamed⟩ := List.mem_filterMap.mp hMem
  exact h.fresh id hId e (entries_load bytes ▸ hEntry) hNamed

theorem run_mirrors (h : Distinct bytes steps) :
    ∃ disk gone, Mirrors (state (run bytes steps)) disk gone (usedBy bytes (run bytes steps)) := by
  have hOpened : Mirrors (state ⟨load bytes, []⟩) (readAll bytes).1 []
      (usedBy bytes ⟨load bytes, []⟩) :=
    .opened bytes fun e hMem id hId => List.mem_filterMap.mpr ⟨e, hMem, hId⟩
  apply And.right (foldl_of_fresh (usedBy bytes)
    (fun x => x.log.Attached ∧ ∃ disk gone, Mirrors (state x) disk gone (usedBy bytes x))
    (usedBy_step bytes) _ ⟨⟨rfl, rfl⟩, _, [], hOpened⟩ h.once h.not_used)
  intro x action hBefore hFresh
  obtain ⟨hAttached, disk, gone, hMirrors⟩ := hBefore
  rw [usedBy_step]
  exact ⟨step_attached hAttached action, hMirrors.moves hFresh (step_spec hAttached action)⟩

/-- A log that is opened from the bytes of this one cuts nothing off and
commits the same transactions. -/
structure Agrees (log : LogFile) : Prop where
  whole : (load log.sink.bytes).sink.bytes = log.sink.bytes
  committedSince : ∀ after, Journal.committedSince (load log.sink.bytes) after =
    Journal.committedSince log after
  lastTxid : Journal.lastTxid (load log.sink.bytes) = Journal.lastTxid log

theorem Mirrors.agrees (h : Mirrors (state x) disk gone used) (hIntact : x.log.failed = false) :
    x.log.Agrees := by
  have hLoad : load x.log.sink.bytes =
      ⟨.reliable x.log.sink.bytes, .ofEntries disk, false, false, false, none⟩ :=
    load_of_lines (h.intact hIntact)
  constructor
  case whole => rw [hLoad, Sink.reliable]
  case committedSince =>
    intro after
    have hCommits : commits [] x.log.ledger.entries = commits [] disk := h.commits_entries
    show (load x.log.sink.bytes).ledger.committedSince after =
      x.log.ledger.committedSince after
    rw [hLoad, Ledger.committedSince_eq_filter, Ledger.committedSince_eq_filter, hCommits,
      Ledger.entries_ofEntries]
  case lastTxid =>
    show (load x.log.sink.bytes).ledger.lastTxid = x.log.ledger.lastTxid
    rw [hLoad, Ledger.lastTxid_ofEntries]
    exact h.latest

/-- A log that mirrors its file is one that a service may go on with, as long as
failed appends can be cut off. -/
theorem Mirrors.settled (h : Mirrors (state x) disk gone used) (hIntact : x.log.failed = false)
    (hCuts : x.log.sink.failTruncate = false) (hAttached : x.log.Attached) :
    x.log.Settled (commits [] x.log.ledger.entries) x.log.ledger.lastTxid x.log.ledger.lastTxid
      used := by
  have hDisk : (Ledger.ofEntries disk).Settled (commits [] disk) (highest disk) (highest disk)
      used := Ledger.ofEntries_settled fun e hMem => h.named e (.inl hMem)
  rw [← h.commits_entries, h.latest] at hDisk
  refine ⟨Ledger.settled_of_highest h.highest_entries (fun id hId => h.known id (.inl hId))
    fun e hMem => h.named e (.inl (h.entries_subset hMem)), disk,
    ⟨h.intact hIntact, hCuts, hAttached⟩, hDisk⟩

/-- A log that fails has its bytes as they are until it is opened or purged. -/
theorem moves_of_failed (hMoves : Moves x action s) (hFailed : x.log.failed = true)
    (hStill : s.failed = true) : s.bytes = x.log.sink.bytes := by
  cases hMoves with
  | idle => rfl
  | start => rfl
  | write hIntact => cases hFailed.symm.trans hIntact
  | commit hIntact => cases hFailed.symm.trans hIntact
  | fail hIntact => cases hFailed.symm.trans hIntact
  | rollback => rfl
  | purge => cases hStill
  | reload => cases hStill

/-- A log begins to fail by an append whose entry is read behind the others
where the sink is stuck, and is not read otherwise. -/
theorem Mirrors.moves_failing (h : Mirrors (state x) disk gone used)
    (hIntact : x.log.failed = false) (hMoves : Moves x action s) (hFailing : s.failed = true) :
    ∃ e, x.log.appended? action = some e ∧
      (¬ x.log.sink.Stuck ∧ (readAll s.bytes).1 = (readAll x.log.sink.bytes).1 ∨
        x.log.sink.Stuck ∧ (readAll s.bytes).1 = (readAll x.log.sink.bytes).1 ++ [e]) := by
  have hLines : Lines x.log.sink.bytes disk := h.intact hIntact
  cases hMoves with
  | idle => cases hIntact.symm.trans hFailing
  | start => cases hIntact.symm.trans hFailing
  | write => cases hIntact.symm.trans hFailing
  | commit => cases hIntact.symm.trans hFailing
  | rollback => cases hIntact.symm.trans hFailing
  | purge => cases hFailing
  | reload => cases hFailing
  | fail _ hEntry _ _ hLeaves =>
      refine ⟨_, hEntry, ?_⟩
      rw [hLines.readAll_eq]
      exact readAll_left hLines hLeaves

theorem Distinct.front {more : List FileStep} (h : Distinct bytes (steps ++ more)) :
    Distinct bytes steps := by
  have hFront : (steps.filterMap FileStep.started?).Sublist
      ((steps ++ more).filterMap FileStep.started?) :=
    List.Sublist.filterMap _ (List.sublist_append_left steps more)
  exact ⟨h.once.sublist hFront, fun id hId => h.fresh id (hFront.subset hId)⟩

/-- A run whose log has failed since one of its appends. The file reads as it
did before this append; the entry of it stands behind the others only if the
sink was stuck. -/
structure Interrupted (bytes : List UInt8) (steps before : List FileStep) (action : FileStep)
    (after : List FileStep) (e : LogEntry) : Prop where
  split : steps = before ++ action :: after
  intact : (run bytes before).log.failed = false
  appended : (run bytes before).log.appended? action = some e
  failed : ∀ later, later <+: after → (run bytes (before ++ action :: later)).log.failed = true
  entries : ¬ (run bytes before).log.sink.Stuck ∧
      (load (run bytes steps).log.sink.bytes).ledger.entries =
        (load (run bytes before).log.sink.bytes).ledger.entries ∨
    (run bytes before).log.sink.Stuck ∧
      (load (run bytes steps).log.sink.bytes).ledger.entries =
        (load (run bytes before).log.sink.bytes).ledger.entries ++ [e]

theorem interrupted_now {last : FileStep} (h : Distinct bytes (steps ++ [last]))
    (hIntact : (run bytes steps).log.failed = false)
    (hFailing : (run bytes (steps ++ [last])).log.failed = true) :
    ∃ e, Interrupted bytes (steps ++ [last]) steps last [] e := by
  have hMoves := run_moves bytes steps last
  obtain ⟨disk, gone, hMirrors⟩ := run_mirrors h.front
  obtain ⟨e, hEntry, hRead⟩ := hMirrors.moves_failing hIntact hMoves hFailing
  refine ⟨e, rfl, hIntact, hEntry, fun later hLater => ?_, ?_⟩
  · rw [List.prefix_nil.mp hLater]
    exact hFailing
  · rw [entries_load, entries_load]
    exact hRead

theorem Interrupted.snoc {before after : List FileStep} {last : FileStep}
    (h : Interrupted bytes steps before action after e)
    (hFailed : (run bytes steps).log.failed = true)
    (hStill : (run bytes (steps ++ [last])).log.failed = true) :
    Interrupted bytes (steps ++ [last]) before action (after ++ [last]) e := by
  have hMoves := run_moves bytes steps last
  have hSplit : steps ++ [last] = before ++ action :: (after ++ [last]) := by
    rw [h.split, List.append_assoc, List.cons_append]
  have hBytes : (run bytes (steps ++ [last])).log.sink.bytes = (run bytes steps).log.sink.bytes :=
    moves_of_failed hMoves hFailed hStill
  refine ⟨hSplit, h.intact, h.appended, fun later hLater => ?_, ?_⟩
  · rcases List.prefix_concat_iff.mp hLater with hAll | hEarlier
    · rw [hAll, ← hSplit]
      exact hStill
    · exact h.failed later hEarlier
  · rw [hBytes]
    exact h.entries

theorem run_interrupted (h : Distinct bytes steps)
    (hFailed : (run bytes steps).log.failed = true) :
    ∃ before action after e, Interrupted bytes steps before action after e := by
  induction steps using List.reverseRecOn with
  | nil => cases hFailed
  | append_singleton rest last ih =>
      cases hBefore : (run bytes rest).log.failed with
      | true =>
          obtain ⟨before, action, after, e, hRest⟩ := ih h.front hBefore
          exact ⟨before, action, _, e, hRest.snoc hBefore hFailed⟩
      | false =>
          obtain ⟨e, hNow⟩ := interrupted_now h hBefore hFailed
          exact ⟨rest, last, [], e, hNow⟩

/-- A file and the log over it agree while nothing of a failed append may be in
the file; otherwise the file reads as it did before this append, with the entry
of the append at most. -/
theorem file_agrees (h : Distinct bytes steps) :
    ((run bytes steps).log.failed = false → (run bytes steps).log.Agrees) ∧
    ((run bytes steps).log.failed = true →
      ∃ before action after e, Interrupted bytes steps before action after e) := by
  obtain ⟨disk, gone, hMirrors⟩ := run_mirrors h
  exact ⟨hMirrors.agrees, run_interrupted h⟩

theorem Distinct.of_unread (hOnce : (steps.filterMap FileStep.started?).Nodup)
    (hNone : (load bytes).ledger.entries = []) : Distinct bytes steps := by
  refine ⟨hOnce, fun id _ e hMem => ?_⟩
  rw [hNone] at hMem
  cases hMem

/-- A torn line is in the file at first. A write that is given up stands on
disk alone, and a write that cannot be made durable makes the log fail. -/
theorem file_agrees_around_failures :
    (run [120] [.call (.start ⟨⟨1⟩⟩), .call (.write (.start ⟨⟨1⟩⟩) "a"),
      .call (.rollback ⟨⟨⟨1⟩⟩, .active, 1⟩)]).log.Agrees ∧
    ∃ before action after e,
      Interrupted [120] [.call (.start ⟨⟨1⟩⟩), .disturb (.syncsAfter 0) true,
        .call (.write (.start ⟨⟨1⟩⟩) "a"), .call (.start ⟨⟨2⟩⟩)] before action after e := by
  have hNone : (load [120]).ledger.entries = [] := rfl
  exact ⟨(file_agrees (.of_unread (by decide) hNone)).1 rfl,
    (file_agrees (.of_unread (by decide) hNone)).2 rfl⟩

end Run

end TierTree.LogFile
