import TierTree.Medium
import TierTree.SortedMap

/-!
Storage policies. A policy says on which media the replicas of a file belong,
and where they go when a medium is not available.
-/

namespace TierTree

/-- The number of a policy on a node. Zero stands for no policy of its own. -/
structure PolicyId where
  raw : UInt8
  deriving DecidableEq, Repr, Inhabited

namespace PolicyId

def unspecified : PolicyId := ⟨0⟩

/-- The largest number a policy may have. -/
def largest : Nat := 15

def isUnspecified (id : PolicyId) : Bool := id = unspecified

/-- Whether a policy may have this number. -/
def isExplicit (id : PolicyId) : Bool := 1 ≤ id.raw.toNat && id.raw.toNat ≤ largest

instance : LT PolicyId := ⟨fun a b => a.raw < b.raw⟩

instance : DecidableLT PolicyId := fun a b => inferInstanceAs (Decidable (a.raw < b.raw))

instance : KeyOrder PolicyId where
  irrefl := fun a => UInt8.lt_irrefl a.raw
  trans := UInt8.lt_trans
  connected := fun {a b} h g => by
    have : a.raw = b.raw := UInt8.le_antisymm (UInt8.not_lt.mp g) (UInt8.not_lt.mp h)
    cases a
    cases b
    simpa using this

def display (id : PolicyId) : String := toString id.raw.toNat

def toValue (id : PolicyId) : Json.Value := .nat id.raw.toNat

def ofValue? (v : Json.Value) : Option PolicyId := v.uint8?.map mk

end PolicyId

/-- A policy. Replica after replica takes the next of `media`, and the last of
them once they are used up. -/
structure Policy where
  id : PolicyId
  name : String
  media : List Medium
  creationFallbacks : List Medium
  replicationFallbacks : List Medium
  deriving DecidableEq, Repr

namespace Policy

/-- Media in brackets. -/
def mediaText (media : List Medium) : String :=
  "[" ++ String.intercalate ", " (media.map Medium.name) ++ "]"

def display (p : Policy) : String :=
  "StoragePolicy\x7b" ++ p.name ++ ":" ++ p.id.display ++
    ", storageTypes=" ++ mediaText p.media ++
    ", creationFallbacks=" ++ mediaText p.creationFallbacks ++
    ", replicationFallbacks=" ++ mediaText p.replicationFallbacks ++ "\x7d"

end Policy

end TierTree
