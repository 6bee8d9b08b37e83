import TierTree.Json.Record
import TierTree.Policy.Basic
import TierTree.Tree.NodeId

/-!
The state of one node at one time. A directory owns its children, and a child
points back to its parent.
-/

namespace TierTree

/-- What a node holds. -/
inductive Content where
  | file (replication : UInt16)
  | directory (children : SortedMap String NodeId)
  deriving DecidableEq, Repr

/-- A node: its name, its parent, its own policy if it has one, and what it
holds. -/
structure Node where
  name : String
  parent : Option NodeId
  policy : PolicyId
  content : Content
  deriving DecidableEq, Repr

namespace Node

/-- A new empty directory. -/
def newDirectory (name : String) (parent : Option NodeId) : Node :=
  ⟨name, parent, .unspecified, .directory .empty⟩

/-- A new file. -/
def newFile (name : String) (parent : NodeId) (replication : UInt16) : Node :=
  ⟨name, some parent, .unspecified, .file replication⟩

/-- The children of a directory. -/
def children? (n : Node) : Option (SortedMap String NodeId) :=
  match n.content with
  | .directory children => some children
  | .file _ => none

def isDirectory (n : Node) : Bool := n.children?.isSome

def child? (n : Node) (name : String) : Option NodeId :=
  n.children?.bind (·.get? name)

/-- The ids of the children, in the order of their names. -/
def childIds (n : Node) : List NodeId :=
  match n.children? with
  | some children => children.values
  | none => []

/-- The replication of a file, zero for a directory. -/
def replication (n : Node) : UInt16 :=
  match n.content with
  | .file replication => replication
  | .directory _ => 0

/-- Change the children of a directory; a file stays as it is. -/
def mapChildren (n : Node) (change : SortedMap String NodeId → SortedMap String NodeId) : Node :=
  match n.content with
  | .directory children => { n with content := .directory (change children) }
  | .file _ => n

end Node

namespace Content

def toValue : Content → Json.Value
  | file replication => .record [("type", .text "file"), ("replication", .nat replication.toNat)]
  | directory children =>
      .record [
        ("type", .text "directory"),
        ("children", .record (children.entries.map fun e => (e.1, e.2.toValue)))]

/-- Bindings of an object, where the last one of a name counts. -/
def childrenOfValue? : Json.Value → Option (SortedMap String NodeId)
  | .object members => do
      let bindings ← members.mapM fun m => do return (← m.1, ← NodeId.ofValue? m.2)
      return .ofList bindings
  | _ => none

/-- The contents that a value stands for; `room` is the nesting depth left. -/
def ofValue? (room : Nat) (v : Json.Value) : Option Content := do
  let (kind, rest) ← v.tagged? "type" room
  match kind with
  | "file" =>
      let r ← rest.record? ["replication"]
      return .file (← r.required "replication" Json.Value.uint16?)
  | "directory" =>
      let r ← rest.record? ["children"]
      return .directory (← r.required "children" childrenOfValue?)
  | _ => none

end Content

namespace Node

def toValue (n : Node) : Json.Value :=
  .record [
    ("name", .text n.name),
    ("parent", .option NodeId.toValue n.parent),
    ("storage_policy", n.policy.toValue),
    ("kind", n.content.toValue)]

def ofValue? (room : Nat) (v : Json.Value) : Option Node := do
  let r ← v.record? ["name", "parent", "storage_policy", "kind"]
  return {
    name := ← r.required "name" Json.Value.text?
    parent := ← r.optional "parent" NodeId.ofValue?
    policy := ← r.required "storage_policy" PolicyId.ofValue?
    content := ← r.required "kind" (Content.ofValue? (room - 1)) }

end Node

end TierTree
