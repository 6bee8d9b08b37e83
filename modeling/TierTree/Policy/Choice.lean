import TierTree.Policy.Basic

/-!
The media a policy chooses. Everything here depends on the policy and the
arguments alone.
-/

namespace TierTree.Policy

/-- The medium of each replica. A policy without media chooses none. -/
def choose (p : Policy) (replication : UInt16) : List Medium :=
  (List.range replication.toNat).filterMap fun i => p.media[min i (p.media.length - 1)]?

/-- The media still missing when replicas exist on `present`: each of these
counts once against the media chosen, and not at all if it is not among them. -/
def remaining (p : Policy) (replication : UInt16) (present : List Medium) : List Medium :=
  present.foldl List.erase (p.choose replication)

/-- The first of some media that is available. -/
def firstAvailable (media unavailable : List Medium) : Option Medium :=
  media.find? (· ∉ unavailable)

/-- Where a new replica goes instead. -/
def creationFallback (p : Policy) (unavailable : List Medium) : Option Medium :=
  firstAvailable p.creationFallbacks unavailable

/-- Where a replica of an existing block goes instead. -/
def replicationFallback (p : Policy) (unavailable : List Medium) : Option Medium :=
  firstAvailable p.replicationFallbacks unavailable

end TierTree.Policy
