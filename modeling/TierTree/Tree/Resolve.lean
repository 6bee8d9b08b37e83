import TierTree.Tree.Basic

/-!
Reading paths and policies. A path leads through the live tree, and after a
`.snapshot` component and a name through what that snapshot shows. The policy
of a node is the nearest one on the way up.
-/

namespace TierTree

/-- What a path leads to: a node in a layer, or the list of snapshots of a
directory. -/
inductive Resolved where
  | node (id : NodeId) (layer : Layer) (state : Node)
  | snapshotDir (dir : NodeId)
  deriving DecidableEq, Repr

namespace Tree

/-- Follow components from a node. `path` is the whole path, for refusals. -/
def follow (t : Tree) (path : String) :
    NodeId → Layer → Node → List String → Except TreeError Resolved
  | id, layer, n, [] => .ok (.node id layer n)
  | id, layer, n, component :: rest =>
      if component = Path.snapshotDir ∧ layer = .live then
        if n.isDirectory then
          match rest with
          | [] => .ok (.snapshotDir id)
          | name :: rest =>
              match t.shelf.get? id name with
              | none => .error (.notFound path)
              | some s =>
                  match t.node? id s.layer with
                  | none => .error (.notFound path)
                  | some frozen => t.follow path id s.layer frozen rest
        else .error (.notADirectory path)
      else
        match n.children? with
        | none => .error (.notADirectory path)
        | some children =>
            match children.get? component with
            | none => .error (.notFound path)
            | some child =>
                match t.node? child layer with
                | none => .error (.notFound path)
                | some below => t.follow path child layer below rest

/-- What a path leads to. -/
def resolve (t : Tree) (path : String) : Except TreeError Resolved :=
  match Path.split path with
  | .error cause => .error (.badPath cause)
  | .ok components =>
      match t.node? .root .live with
      | none => .error (.notFound path)
      | some n => t.follow path .root .live n components

/-- What a path below a snapshot of a directory leads to. -/
def resolveInSnapshot (t : Tree) (dir name subpath : String) : Except TreeError Resolved :=
  if Path.isValidName name then
    let root := Path.join (Path.join dir Path.snapshotDir) name
    match Path.trimFront subpath.toList with
    | [] => t.resolve root
    | rest => t.resolve (Path.join root (String.ofList rest))
  else .error (.badPath (.badName name))

/-- What one node says about the policy in force below it: an answer, or the
parent to ask next. -/
def policyStep (t : Tree) (layer : Layer) (id : NodeId) : PolicyId ⊕ NodeId :=
  match t.node? id layer with
  | none => .inl .unspecified
  | some n =>
      if n.policy ≠ .unspecified then .inl n.policy
      else
        match layer, n.parent with
        | .live, some parent => .inr parent
        | .live, none => .inl .unspecified
        | .frozen root _ inherited, parent =>
            if id = root then .inl inherited
            else
              match parent with
              | some parent => .inr parent
              | none => .inl .unspecified

/-- Ask a node, and then its parents, at most `steps` of them in all. -/
def policyWalk (t : Tree) (layer : Layer) : Nat → NodeId → Except Fault PolicyId
  | 0, _ => .error .endless
  | steps + 1, id =>
      match t.policyStep layer id with
      | .inl answer => .ok answer
      | .inr parent => t.policyWalk layer steps parent

/-- The policy in force for a node: its own, or the nearest one above it. A
snapshot ends at its directory with the policy inherited when it was taken. The
default of a registry never comes in here. A walk that asks more nodes than
there are comes back to where it was, and so has no end. -/
def effectivePolicy (t : Tree) (id : NodeId) (layer : Layer) : Except Fault PolicyId :=
  t.policyWalk layer (t.timelines.size + 1) id

/-- The policy in force for what a path leads to. -/
def effectivePolicyOf (t : Tree) (path : String) : Attempt TreeError PolicyId :=
  match t.resolve path with
  | .error e => .error (.refused e)
  | .ok (.node id layer _) => (t.effectivePolicy id layer).mapError .fault
  | .ok (.snapshotDir dir) => (t.effectivePolicy dir .live).mapError .fault

end Tree

end TierTree
