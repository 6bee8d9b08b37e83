import TierTree.Tree.Edit
import TierTree.Tree.Resolve

/-!
Planning an edit. The tree is asked whether an edit may be made and which
nodes it is about; nothing is changed. A caller that has to store the edit
first does so between planning it and carrying it out.
-/

namespace TierTree

/-- An edit with its paths looked up. `missing` are the directories to be
created on the way. -/
inductive Plan where
  | mkdirs (parent : NodeId) (missing : List String)
  | createFile (parent : NodeId) (missing : List String) (name : String) (replication : UInt16)
  | delete (parent : NodeId) (name : String) (target : NodeId)
  | setPolicy (target : NodeId) (policy : PolicyId)
  | createSnapshot (root : NodeId) (name : String)
  | deleteSnapshot (root : NodeId) (name : String)
  deriving DecidableEq, Repr

namespace Tree

/-- The state of a node of the live tree. -/
def live (t : Tree) (id : NodeId) (path : String) : Except TreeError Node :=
  match t.node? id .live with
  | some n => .ok n
  | none => .error (.notFound path)

/-- The components of a path that may be changed. -/
def liveComponents (path : String) : Except TreeError (List String) :=
  match Path.split path with
  | .error cause => .error (.badPath cause)
  | .ok components =>
      if Path.entersSnapshots components then .error (.readOnlySnapshot path) else .ok components

/-- Go down from a node as far as the components lead. The components left
over are missing below the node that is reached. -/
def descend (t : Tree) (path : String) :
    NodeId → List String → Except TreeError (NodeId × List String)
  | id, [] => .ok (id, [])
  | id, component :: rest => do
      let n ← t.live id path
      match n.children? with
      | none => .error (.notADirectory path)
      | some children =>
          match children.get? component with
          | some child => t.descend path child rest
          | none => .ok (id, component :: rest)

/-- The node that components lead to. -/
def liveNode (t : Tree) (path : String) (components : List String) : Except TreeError NodeId := do
  let (id, missing) ← t.descend path .root components
  if missing = [] then .ok id else .error (.notFound path)

/-- The directory that components lead to. -/
def liveDirectory (t : Tree) (path : String) (components : List String) :
    Except TreeError NodeId := do
  let id ← t.liveNode path components
  let n ← t.live id path
  if n.isDirectory then .ok id else .error (.notADirectory path)

/-- Names for new entries, as long as all of them may be used. -/
def newNames (names : List String) : Except TreeError (List String) :=
  match names.find? fun n => !Path.isValidName n with
  | some bad => .error (.badPath (.badName bad))
  | none => .ok names

/-- The snapshots of the live directory at a path, in the order of their
names. -/
def snapshotsAt (t : Tree) (path : String) : Except TreeError (List Snapshot) := do
  let components ← liveComponents path
  let dir ← t.liveDirectory path components
  return t.shelf.snapshotsOf dir

/-- Directories can be made where no file is in the way. -/
def planMkdirs (t : Tree) (path : String) : Except TreeError Plan := do
  let components ← liveComponents path
  let (parent, missing) ← t.descend path .root components
  let n ← t.live parent path
  if n.isDirectory then
    return .mkdirs parent (← newNames missing)
  else .error (.alreadyExists path)

/-- A file can be made where nothing is, below directories that are there or
can be made. -/
def planCreateFile (t : Tree) (path : String) (replication : UInt16) :
    Except TreeError Plan := do
  let components ← liveComponents path
  match components.getLast? with
  | none => .error (.createsRoot path)
  | some name =>
      if replication = 0 then .error (.zeroReplication path)
      else do
        let (parent, missing) ← t.descend path .root components.dropLast
        let n ← t.live parent path
        if !n.isDirectory then .error (.notADirectory path)
        else if missing = [] ∧ (n.child? name).isSome then .error (.alreadyExists path)
        else do
          let missing ← newNames missing
          let _ ← newNames [name]
          return .createFile parent missing name replication

/-- The parent, the name and the number of a node to be deleted. Whether there
are snapshots below it is not asked here. -/
def deletedNode (t : Tree) (path : String) (recursive : Bool) :
    Except TreeError (NodeId × String × NodeId) := do
  let components ← liveComponents path
  match components.getLast? with
  | none => .error .deletesRoot
  | some name => do
      let target ← t.liveNode path components
      let n ← t.live target path
      match n.parent with
      | none => .error (.notFound path)
      | some parent =>
          if n.childIds ≠ [] ∧ !recursive then .error (.notEmpty path)
          else .ok (parent, name, target)

/-- A node can be deleted when no snapshot is taken of it or below it. -/
def planDelete (t : Tree) (path : String) (recursive : Bool) : Attempt TreeError Plan :=
  match t.deletedNode path recursive with
  | .error e => .error (.refused e)
  | .ok (parent, name, target) =>
      match t.subtree target with
      | .error f => .error (.fault f)
      | .ok ids =>
          if ids.any t.shelf.hasSnapshots then .error (.refused (.hasSnapshots path))
          else .ok (.delete parent name target)

def planSetPolicy (t : Tree) (path : String) (policy : PolicyId) : Except TreeError Plan := do
  let components ← liveComponents path
  let target ← t.liveNode path components
  return .setPolicy target policy

def planCreateSnapshot (t : Tree) (path name : String) : Except TreeError Plan := do
  let components ← liveComponents path
  let root ← t.liveDirectory path components
  if !Path.isValidName name then .error (.badPath (.badName name))
  else if t.shelf.contains root name then .error (.snapshotExists path name)
  else .ok (.createSnapshot root name)

def planDeleteSnapshot (t : Tree) (path name : String) : Except TreeError Plan := do
  let components ← liveComponents path
  let root ← t.liveDirectory path components
  if t.shelf.contains root name then .ok (.deleteSnapshot root name)
  else .error (.snapshotNotFound path name)

/-- Look up what an edit is about, or refuse it. -/
def plan (t : Tree) : Edit → Attempt TreeError Plan
  | .mkdirs path => (t.planMkdirs path).mapError .refused
  | .createFile path replication => (t.planCreateFile path replication).mapError .refused
  | .delete path recursive => t.planDelete path recursive
  | .setPolicy path policy => (t.planSetPolicy path policy).mapError .refused
  | .createSnapshot path name => (t.planCreateSnapshot path name).mapError .refused
  | .deleteSnapshot path name => (t.planDeleteSnapshot path name).mapError .refused

end Tree

end TierTree
