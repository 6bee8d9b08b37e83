import TierTree.Tree.Timeline

/-!
Snapshots of directories. A snapshot only records when it was taken and what
policy its directory inherited then; the states it shows are in the timelines.
-/

namespace TierTree

/-- A snapshot of the directory `root`. -/
structure Snapshot where
  name : String
  root : NodeId
  epoch : Epoch
  inherited : PolicyId
  deriving DecidableEq, Repr

namespace Snapshot

def toValue (s : Snapshot) : Json.Value :=
  .record [
    ("name", .text s.name),
    ("root", s.root.toValue),
    ("epoch", .nat s.epoch.toNat),
    ("inherited_policy", s.inherited.toValue)]

def ofValue? (v : Json.Value) : Option Snapshot := do
  let r ← v.record? ["name", "root", "epoch", "inherited_policy"]
  return {
    name := ← r.required "name" Json.Value.text?
    root := ← r.required "root" NodeId.ofValue?
    epoch := ← r.required "epoch" Json.Value.uint64?
    inherited := ← r.required "inherited_policy" PolicyId.ofValue? }

end Snapshot

/-- What a tree is read through: as it is now, or as a snapshot shows it. -/
inductive Layer where
  | live
  | frozen (root : NodeId) (epoch : Epoch) (inherited : PolicyId)
  deriving DecidableEq, Repr

def Layer.isLive : Layer → Bool
  | live => true
  | frozen _ _ _ => false

def Snapshot.layer (s : Snapshot) : Layer := .frozen s.root s.epoch s.inherited

/-- Snapshots are told apart by their directory and their name. -/
structure SnapshotKey where
  root : NodeId
  name : String
  deriving DecidableEq, Repr

namespace SnapshotKey

/-- Snapshots of one directory stand together, in the order of their names. -/
instance : LT SnapshotKey := ⟨fun a b => a.root < b.root ∨ a.root = b.root ∧ a.name < b.name⟩

instance : DecidableLT SnapshotKey := fun a b =>
  inferInstanceAs (Decidable (a.root < b.root ∨ a.root = b.root ∧ a.name < b.name))

instance : KeyOrder SnapshotKey where
  irrefl := fun a h => by
    rcases h with h | ⟨_, h⟩
    · exact KeyOrder.irrefl a.root h
    · exact KeyOrder.irrefl a.name h
  trans := fun {a b c} h g => by
    rcases h with h | ⟨sameH, h⟩ <;> rcases g with g | ⟨sameG, g⟩
    · exact .inl (KeyOrder.trans h g)
    · exact .inl (sameG ▸ h)
    · exact .inl (sameH ▸ g)
    · exact .inr ⟨sameH.trans sameG, KeyOrder.trans h g⟩
  connected := fun {a b} h g => by
    have root : a.root = b.root :=
      KeyOrder.connected (fun lt => h (.inl lt)) (fun lt => g (.inl lt))
    have name : a.name = b.name :=
      KeyOrder.connected (fun lt => h (.inr ⟨root, lt⟩)) (fun lt => g (.inr ⟨root.symm, lt⟩))
    cases a
    cases b
    simp_all

end SnapshotKey

/-- What is recorded under the key of a snapshot. -/
structure Mark where
  epoch : Epoch
  inherited : PolicyId
  deriving DecidableEq, Repr

/-- The snapshots of a tree. -/
structure Shelf where
  marks : SortedMap SnapshotKey Mark
  deriving DecidableEq, Repr

namespace Shelf

def empty : Shelf := ⟨.empty⟩

/-- A snapshot from its key and what is recorded there. -/
def snapshotOf (key : SnapshotKey) (mark : Mark) : Snapshot :=
  ⟨key.name, key.root, mark.epoch, mark.inherited⟩

/-- Every snapshot, by directory and then by name. -/
def toList (s : Shelf) : List Snapshot := s.marks.entries.map fun e => snapshotOf e.1 e.2

def get? (s : Shelf) (root : NodeId) (name : String) : Option Snapshot :=
  (s.marks.get? ⟨root, name⟩).map (snapshotOf ⟨root, name⟩)

def contains (s : Shelf) (root : NodeId) (name : String) : Bool := (s.get? root name).isSome

/-- The snapshots of one directory, in the order of their names. -/
def snapshotsOf (s : Shelf) (root : NodeId) : List Snapshot := s.toList.filter (·.root = root)

def hasSnapshots (s : Shelf) (root : NodeId) : Bool := !(s.snapshotsOf root).isEmpty

/-- Add a snapshot in place of any of the same directory and name. -/
def insert (s : Shelf) (snapshot : Snapshot) : Shelf :=
  ⟨s.marks.insert ⟨snapshot.root, snapshot.name⟩ ⟨snapshot.epoch, snapshot.inherited⟩⟩

def remove (s : Shelf) (root : NodeId) (name : String) : Shelf := ⟨s.marks.erase ⟨root, name⟩⟩

theorem get?_insert (s : Shelf) (x : Snapshot) (root : NodeId) (name : String) :
    (s.insert x).get? root name =
      if root = x.root ∧ name = x.name then some x else s.get? root name := by
  simp only [get?, insert, SortedMap.get?_insert, SnapshotKey.mk.injEq]
  split
  next same =>
    obtain ⟨rfl, rfl⟩ := same
    rfl
  next => rfl

theorem get?_remove (s : Shelf) (dir root : NodeId) (old name : String) :
    (s.remove dir old).get? root name =
      if root = dir ∧ name = old then none else s.get? root name := by
  simp only [get?, remove, SortedMap.get?_erase, SnapshotKey.mk.injEq]
  split <;> rfl

/-- The epochs that some snapshot still reads, each once and in ascending
order. -/
def epochs (s : Shelf) : List Epoch :=
  (SortedMap.ofList (s.toList.map fun (x : Snapshot) => (x.epoch, ()))).keys

theorem mem_epochs_iff {s : Shelf} {e : Epoch} : e ∈ s.epochs ↔ ∃ x ∈ s.toList, x.epoch = e := by
  simp [epochs, SortedMap.mem_keys_ofList]

def size (s : Shelf) : Nat := s.marks.size

def isEmpty (s : Shelf) : Bool := s.marks.isEmpty

end Shelf

end TierTree
