import TierTree.Tree.Plan

/-!
Carrying out a plan. A plan is never refused; it breaks off only where a
counter is used up or a walk does not end.
-/

namespace TierTree.Tree

/-- Write a changed copy of the live state of a node, if it has one. -/
def update (t : Tree) (id : NodeId) (change : Node → Node) : Tree :=
  match t.timelines.get? id with
  | none => t
  | some line =>
      match line.current with
      | none => t
      | some n =>
          { t with timelines := t.timelines.insert id (line.write t.epoch (some (change n))) }

/-- Give a new node the next number and enter it into its parent. -/
def addChild (t : Tree) (parent : NodeId) (n : Node) : Except Fault (NodeId × Tree) := do
  let id := t.nextId
  let next ← id.next
  let added := { t with
    timelines := t.timelines.insert id (.start t.epoch n)
    nextId := next }
  return (id, added.update parent (·.mapChildren (·.insert n.name id)))

/-- Create directories, each inside the one before. The last of them comes
back, or `parent` if there is none. -/
def addDirectories (t : Tree) (parent : NodeId) : List String → Except Fault (NodeId × Tree)
  | [] => .ok (parent, t)
  | name :: rest => do
      let (id, added) ← t.addChild parent (.newDirectory name (some parent))
      added.addDirectories id rest

/-- Delete one node. It stays only while a snapshot can see it. -/
def bury (t : Tree) (id : NodeId) : Tree :=
  match t.timelines.get? id with
  | none => t
  | some line =>
      let buried := line.write t.epoch none
      if buried.isGone then { t with timelines := t.timelines.erase id }
      else { t with timelines := t.timelines.insert id buried }

/-- Delete a node and all below it, and take it out of its parent. -/
def removeSubtree (t : Tree) (parent : NodeId) (name : String) (target : NodeId) :
    Except Fault Tree := do
  let doomed ← t.subtree target
  return doomed.foldl bury (t.update parent (·.mapChildren (·.erase name)))

/-- Drop the versions that neither the live tree nor a snapshot can see, and
the nodes without a state left. -/
def prune (t : Tree) : Tree :=
  { t with
    timelines := t.timelines.filterMap fun _ line =>
      let kept := line.prune t.shelf.epochs
      if kept.isGone then none else some kept }

/-- The policy that a directory inherits from above. -/
def inheritedPolicy (t : Tree) (id : NodeId) : Except Fault PolicyId :=
  match (t.node? id .live).bind (·.parent) with
  | none => .ok .unspecified
  | some parent => t.effectivePolicy parent .live

/-- Take a snapshot of a directory. The clock ticks, so that later writes are
told apart from what the snapshot shows. -/
def takeSnapshot (t : Tree) (root : NodeId) (name : String) : Except Fault Tree := do
  let inherited ← t.inheritedPolicy root
  let next ← successor t.epoch
  return { t with shelf := t.shelf.insert ⟨name, root, t.epoch, inherited⟩, epoch := next }

/-- Carry out a plan. The node it is about comes back. -/
def execute (t : Tree) : Plan → Except Fault (NodeId × Tree)
  | .mkdirs parent missing => t.addDirectories parent missing
  | .createFile parent missing name replication => do
      let (dir, added) ← t.addDirectories parent missing
      added.addChild dir (.newFile name dir replication)
  | .delete parent name target => do
      return (target, ← t.removeSubtree parent name target)
  | .setPolicy target policy =>
      .ok (target, t.update target fun n => { n with policy := policy })
  | .createSnapshot root name => do
      return (root, ← t.takeSnapshot root name)
  | .deleteSnapshot root name =>
      .ok (root, { t with shelf := t.shelf.remove root name }.prune)

/-- Plan an edit and carry it out. -/
def apply (t : Tree) (e : Edit) : Attempt TreeError (NodeId × Tree) := do
  let p ← t.plan e
  (t.execute p).mapError .fault

end TierTree.Tree
