import TierTree.Tree.Resolve

/-!
Listings. A status is what a listing says about one node, with the policy in
force for it.
-/

namespace TierTree

inductive FileKind where
  | file
  | directory
  deriving DecidableEq, Repr

namespace FileKind

def name : FileKind → String
  | file => "file"
  | directory => "directory"

def ofValue? (v : Json.Value) : Option FileKind :=
  v.name?.bind fun s => [file, directory].find? (·.name = s)

end FileKind

/-- One line of a listing. -/
structure FileStatus where
  name : String
  nodeId : NodeId
  kind : FileKind
  replication : UInt16
  childCount : Nat
  policy : PolicyId
  deriving DecidableEq, Repr

namespace FileStatus

def isDirectory (s : FileStatus) : Bool := s.kind = .directory

def toValue (s : FileStatus) : Json.Value :=
  .record [
    ("name", .text s.name),
    ("node_id", s.nodeId.toValue),
    ("kind", .text s.kind.name),
    ("replication", .nat s.replication.toNat),
    ("children_num", .nat s.childCount),
    ("storage_policy", s.policy.toValue)]

def ofValue? (v : Json.Value) : Option FileStatus := do
  let r ← v.record?
    ["name", "node_id", "kind", "replication", "children_num", "storage_policy"]
  return {
    name := ← r.required "name" Json.Value.text?
    nodeId := ← r.required "node_id" NodeId.ofValue?
    kind := ← r.required "kind" FileKind.ofValue?
    replication := ← r.required "replication" Json.Value.uint16?
    childCount := ← r.required "children_num" (Json.Value.natBelow? UInt64.size)
    policy := ← r.required "storage_policy" PolicyId.ofValue? }

end FileStatus

namespace Tree

/-- The name a node goes by: the directory of a snapshot goes by the name of
the snapshot. -/
def displayName (t : Tree) (id : NodeId) (layer : Layer) (n : Node) : String :=
  match layer with
  | .live => n.name
  | .frozen root epoch _ =>
      if root = id then
        match (t.shelf.snapshotsOf root).find? (·.epoch = epoch) with
        | some s => s.name
        | none => n.name
      else n.name

/-- The status of a node in a layer. -/
def statusOfNode (t : Tree) (id : NodeId) (layer : Layer) (n : Node) :
    Except Fault FileStatus := do
  return {
    name := t.displayName id layer n
    nodeId := id
    kind := if n.isDirectory then .directory else .file
    replication := n.replication
    childCount := match n.children? with
      | some children => children.size
      | none => 0
    policy := ← t.effectivePolicy id layer }

/-- The status of what a path leads to. The list of snapshots shows as a
directory of its own. -/
def statusOf (t : Tree) : Resolved → Except Fault FileStatus
  | .node id layer n => t.statusOfNode id layer n
  | .snapshotDir dir => do
      return {
        name := Path.snapshotDir
        nodeId := dir
        kind := .directory
        replication := 0
        childCount := (t.shelf.snapshotsOf dir).length
        policy := ← t.effectivePolicy dir .live }

/-- The entries that a listing shows: those whose state is there in the layer. -/
def visible (t : Tree) (layered : List (NodeId × Layer)) : List (NodeId × Layer × Node) :=
  layered.filterMap fun e => (t.node? e.1 e.2).map fun n => (e.1, e.2, n)

/-- The nodes listed for what a path leads to: the entries of a directory in
the order of their names, or a file alone. -/
def listed (t : Tree) : Resolved → List (NodeId × Layer × Node)
  | .snapshotDir dir =>
      t.visible ((t.shelf.snapshotsOf dir).map fun (s : Snapshot) => (s.root, s.layer))
  | .node id layer n =>
      match n.children? with
      | none => [(id, layer, n)]
      | some children => t.visible (children.values.map fun child => (child, layer))

/-- The statuses of what a path leads to. -/
def list (t : Tree) (path : String) : Attempt TreeError (List FileStatus) :=
  match t.resolve path with
  | .error e => .error (.refused e)
  | .ok resolved =>
      ((t.listed resolved).mapM fun e => t.statusOfNode e.1 e.2.1 e.2.2).mapError .fault

/-- The status of what a path leads to. -/
def info (t : Tree) (path : String) : Attempt TreeError FileStatus :=
  match t.resolve path with
  | .error e => .error (.refused e)
  | .ok resolved => (t.statusOf resolved).mapError .fault

end Tree

end TierTree
