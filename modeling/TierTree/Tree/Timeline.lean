import TierTree.Tree.Node

/-!
Timelines. The tree has a logical clock that ticks with every snapshot, and a
node keeps a version for every tick at which it was written. A snapshot goes
on reading the versions of its own tick while the tree reads the latest ones.
-/

namespace TierTree

/-- A reading of the clock of a tree. -/
abbrev Epoch := UInt64

/-- The state of a node from one epoch on. No state means that the node is
deleted from then on. -/
structure Version where
  since : Epoch
  state : Option Node
  deriving DecidableEq, Repr

/-- The versions of a node, the latest one apart and the earlier ones from new
to old. -/
structure Timeline where
  latest : Version
  earlier : List Version
  deriving DecidableEq, Repr

namespace Version

def toValue (v : Version) : Json.Value :=
  .record [("since", .nat v.since.toNat), ("state", .option Node.toValue v.state)]

def ofValue? (room : Nat) (v : Json.Value) : Option Version := do
  let r ← v.record? ["since", "state"]
  return {
    since := ← r.required "since" Json.Value.uint64?
    state := ← r.optional "state" (Node.ofValue? (room - 1)) }

end Version

namespace Timeline

/-- A timeline with a single state. -/
def start (since : Epoch) (n : Node) : Timeline := ⟨⟨since, some n⟩, []⟩

/-- All versions from old to new. -/
def versions (t : Timeline) : List Version := (t.latest :: t.earlier).reverse

/-- The timeline with these versions from old to new. They have to be at least
one, and each later than the one before. -/
def ofVersions? (versions : List Version) : Option Timeline :=
  match versions.reverse with
  | [] => none
  | latest :: earlier =>
      if versions.Pairwise (fun a b => a.since < b.since) then some ⟨latest, earlier⟩ else none

/-- The latest state. -/
def current (t : Timeline) : Option Node := t.latest.state

/-- The state at an epoch, if the node is there at that time. -/
def stateAt (t : Timeline) (epoch : Epoch) : Option Node :=
  ((t.latest :: t.earlier).find? (·.since ≤ epoch)).bind (·.state)

/-- Write a state at an epoch. What was written in the same epoch is replaced;
no snapshot has seen it. -/
def write (t : Timeline) (epoch : Epoch) (state : Option Node) : Timeline :=
  if t.latest.since = epoch then { t with latest := { t.latest with state := state } }
  else ⟨⟨epoch, state⟩, t.latest :: t.earlier⟩

/-- Whether no version holds a state. -/
def isGone (t : Timeline) : Bool := t.versions.all (·.state.isNone)

/-- Of versions from new to old, the ones seen at some of the epochs. A version
is seen from its own epoch up to the next version, which for the first of them
begins at `untilEpoch`. -/
def seen (epochs : List Epoch) : Epoch → List Version → List Version
  | _, [] => []
  | untilEpoch, v :: older =>
      if epochs.any fun e => v.since ≤ e ∧ e < untilEpoch then v :: seen epochs v.since older
      else seen epochs v.since older

/-- Keep the latest version and those seen at some of the epochs. -/
def prune (t : Timeline) (epochs : List Epoch) : Timeline :=
  { t with earlier := seen epochs t.latest.since t.earlier }

end Timeline

end TierTree
