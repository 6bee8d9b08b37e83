import TierTree.Policy.Choice
import TierTree.Policy.Registry

/-!
Placement of the replicas of one file. Only here does the default policy stand
in for a missing one.
-/

namespace TierTree

/-- The media chosen for the replicas of a file, and the policy they were
chosen by. -/
structure Placement where
  policy : PolicyId
  policyName : String
  defaulted : Bool
  media : List Medium
  creationFallback : Option Medium
  replicationFallback : Option Medium
  deriving DecidableEq, Repr

namespace Placement

/-- Place replicas by a policy. A replica on an unavailable medium goes to the
fallback, and nowhere if there is none. -/
def byPolicy (p : Policy) (defaulted : Bool) (replication : UInt16)
    (unavailable : List Medium) : Placement :=
  let fallback := p.creationFallback unavailable
  { policy := p.id
    policyName := p.name
    defaulted := defaulted
    media := (p.choose replication).filterMap fun m =>
      if m ∈ unavailable then fallback else some m
    creationFallback := fallback
    replicationFallback := p.replicationFallback unavailable }

/-- Place replicas under an effective policy, or under the default one when no
policy has this number. -/
def resolve (r : Registry) (effective : PolicyId) (replication : UInt16)
    (unavailable : List Medium) : Placement :=
  match r.policy? effective with
  | some p => byPolicy p false replication unavailable
  | none => byPolicy r.defaultPolicy true replication unavailable

def toValue (p : Placement) : Json.Value :=
  .record [
    ("policy", p.policy.toValue),
    ("policy_name", .text p.policyName),
    ("defaulted", .bool p.defaulted),
    ("storage_types", .list Medium.toValue p.media),
    ("creation_fallback", .option Medium.toValue p.creationFallback),
    ("replication_fallback", .option Medium.toValue p.replicationFallback)]

end Placement

end TierTree
