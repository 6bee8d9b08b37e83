import TierTree.Path
import TierTree.Tree.Snapshot

/-!
The tree. All nodes that the live tree or a snapshot can still see are kept by
number, each with its timeline, and paths are followed through the children of
directories.
-/

namespace TierTree

/-- What is wrong with a stored image of a tree. -/
inductive ImageFault where
  | idNotBelowNext (id next : NodeId)
  | badVersions (id : NodeId)
  | repeatedNode (id : NodeId)
  | rootMissing
  | straySnapshot (name : String) (root : NodeId)
  deriving DecidableEq, Repr

def ImageFault.detail : ImageFault → String
  | idNotBelowNext id next => id.display ++ " is not below the next id " ++ next.display
  | badVersions id => id.display ++ " has unordered or no versions"
  | repeatedNode id => id.display ++ " appears twice"
  | rootMissing => "root directory is missing"
  | straySnapshot name root =>
      "snapshot " ++ name ++ " of " ++ root.display ++ " does not match the tree"

/-- Why the tree refuses a call. -/
inductive TreeError where
  | badPath (cause : PathError)
  | notFound (path : String)
  | notADirectory (path : String)
  | alreadyExists (path : String)
  | notEmpty (path : String)
  | readOnlySnapshot (path : String)
  | snapshotExists (path name : String)
  | snapshotNotFound (path name : String)
  | hasSnapshots (path : String)
  | createsRoot (path : String)
  | zeroReplication (path : String)
  | deletesRoot
  | corruptImage (cause : ImageFault)
  deriving DecidableEq, Repr

namespace TreeError

def message : TreeError → String
  | badPath cause => "Path error: " ++ cause.message
  | notFound path => "File/Directory does not exist: " ++ path
  | notADirectory path => "Not a directory: " ++ path
  | alreadyExists path => "Already exists: " ++ path
  | notEmpty path => "Directory is not empty: " ++ path
  | readOnlySnapshot path => "Modification on a read-only snapshot is disallowed: " ++ path
  | snapshotExists path name => "Snapshot " ++ name ++ " already exists for " ++ path
  | snapshotNotFound path name => "Cannot find snapshot " ++ name ++ " of " ++ path
  | hasSnapshots path =>
      "The directory " ++ path ++ " cannot be deleted since it has snapshot(s)"
  | createsRoot path => "Invalid operation: " ++ path ++ " is the root directory"
  | zeroReplication path => "Invalid operation: replication of " ++ path ++ " must be at least 1"
  | deletesRoot => "Invalid operation: the root directory cannot be deleted"
  | corruptImage cause => "Corrupt namespace image: " ++ cause.detail

end TreeError

/-- A tree with its snapshots, its clock and the next free number. -/
structure Tree where
  timelines : SortedMap NodeId Timeline
  shelf : Shelf
  epoch : Epoch
  nextId : NodeId
  deriving DecidableEq, Repr

namespace Tree

/-- The tree with nothing but its root directory. -/
def new : Tree where
  timelines := SortedMap.empty.insert NodeId.root (.start 0 (.newDirectory "" none))
  shelf := .empty
  epoch := 0
  nextId := ⟨2⟩

/-- The number of nodes kept, among them those kept only for snapshots. -/
def retained (t : Tree) : Nat := t.timelines.size

/-- The state of a node as seen through a layer. -/
def node? (t : Tree) (id : NodeId) (layer : Layer) : Option Node :=
  match t.timelines.get? id, layer with
  | none, _ => none
  | some line, .live => line.current
  | some line, .frozen _ epoch _ => line.stateAt epoch

/-- The nodes below some others at each depth, down to a depth without any. -/
def levels (t : Tree) : Nat → List NodeId → Except Fault (List NodeId)
  | _, [] => .ok []
  | 0, _ :: _ => .error .endless
  | depth + 1, id :: ids => do
      let below := (id :: ids).flatMap fun i =>
        match t.node? i .live with
        | some n => n.childIds
        | none => []
      return (id :: ids) ++ (← t.levels depth below)

/-- A node and all below it in the live tree, nearest first. A chain of
children that is longer than the number of nodes comes back to where it was,
and so has no end. -/
def subtree (t : Tree) (root : NodeId) : Except Fault (List NodeId) :=
  t.levels (t.timelines.size + 1) [root]

end Tree

end TierTree
