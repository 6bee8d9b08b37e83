import TierTree.Tree.Apply
import TierTree.Tree.Status

/-!
Images of a tree. An image holds every version that is kept and every
snapshot, so a tree restored from it answers like the one it was taken from.
-/

namespace TierTree

/-- A node of an image, with its versions from old to new. -/
structure NodeRecord where
  id : NodeId
  versions : List Version
  deriving DecidableEq, Repr

/-- The stored form of a tree. -/
structure Image where
  epoch : Epoch
  nextId : NodeId
  nodes : List NodeRecord
  snapshots : List Snapshot
  deriving DecidableEq, Repr

namespace Tree

def toImage (t : Tree) : Image where
  epoch := t.epoch
  nextId := t.nextId
  nodes := t.timelines.entries.map fun e => ⟨e.1, e.2.versions⟩
  snapshots := t.shelf.toList

/-- Take in one node of an image after others. -/
def restoreNode (next : NodeId) (timelines : SortedMap NodeId Timeline) (r : NodeRecord) :
    Except ImageFault (SortedMap NodeId Timeline) :=
  if r.id < next then
    match Timeline.ofVersions? r.versions with
    | none => .error (.badVersions r.id)
    | some line =>
        if timelines.contains r.id then .error (.repeatedNode r.id)
        else .ok (timelines.insert r.id line)
  else .error (.idNotBelowNext r.id next)

/-- Take in one snapshot of an image after others. -/
def restoreSnapshot (timelines : SortedMap NodeId Timeline) (epoch : Epoch) (shelf : Shelf)
    (s : Snapshot) : Except ImageFault Shelf :=
  if timelines.contains s.root ∧ s.epoch < epoch then .ok (shelf.insert s)
  else .error (.straySnapshot s.name s.root)

/-- Whether the root is there as a directory. -/
def hasRoot (timelines : SortedMap NodeId Timeline) : Bool :=
  match (timelines.get? .root).bind (·.current) with
  | some n => n.isDirectory
  | none => false

/-- The tree that an image was taken from. -/
def ofImage (image : Image) : Except ImageFault Tree := do
  let timelines ← image.nodes.foldlM (restoreNode image.nextId) .empty
  if hasRoot timelines then do
    let shelf ← image.snapshots.foldlM (restoreSnapshot timelines image.epoch) .empty
    return ⟨timelines, shelf, image.epoch, image.nextId⟩
  else .error .rootMissing

end Tree

namespace NodeRecord

def toValue (r : NodeRecord) : Json.Value :=
  .record [("id", r.id.toValue), ("versions", .list Version.toValue r.versions)]

def ofValue? (room : Nat) (v : Json.Value) : Option NodeRecord := do
  let r ← v.record? ["id", "versions"]
  return {
    id := ← r.required "id" NodeId.ofValue?
    versions := ← r.required "versions" (Json.Value.list? (Version.ofValue? (room - 2))) }

end NodeRecord

namespace Image

def toValue (i : Image) : Json.Value :=
  .record [
    ("epoch", .nat i.epoch.toNat),
    ("next_id", i.nextId.toValue),
    ("nodes", .list NodeRecord.toValue i.nodes),
    ("snapshots", .list Snapshot.toValue i.snapshots)]

/-- The image that a value stands for. Its nodes are two containers further
down. -/
def ofValue? (v : Json.Value) : Option Image := do
  let r ← v.record? ["epoch", "next_id", "nodes", "snapshots"]
  return {
    epoch := ← r.required "epoch" Json.Value.uint64?
    nextId := ← r.required "next_id" NodeId.ofValue?
    nodes := ← r.required "nodes"
      (Json.Value.list? (NodeRecord.ofValue? (Json.Value.maxDepth - 2)))
    snapshots := ← r.required "snapshots" (Json.Value.list? Snapshot.ofValue?) }

/-- The image as a JSON text. -/
def render (i : Image) : String := i.toValue.render

/-- The image that a text stands for. -/
def parse? (s : String) : Option Image := (Json.parse s).bind ofValue?

end Image

end TierTree
