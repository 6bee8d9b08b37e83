import TierTree.Failure
import TierTree.Json.Value
import TierTree.SortedMap

/-!
Numbers of nodes. The root has the number one and every later node the next
number, so that the same edits always give the same numbers.
-/

namespace TierTree

structure NodeId where
  raw : UInt64
  deriving DecidableEq, Repr, Inhabited

namespace NodeId

def root : NodeId := ⟨1⟩

instance : LT NodeId := ⟨fun a b => a.raw < b.raw⟩

instance : DecidableLT NodeId := fun a b => inferInstanceAs (Decidable (a.raw < b.raw))

instance : KeyOrder NodeId where
  irrefl := fun a => UInt64.lt_irrefl a.raw
  trans := UInt64.lt_trans
  connected := fun {a b} h g => by
    have : a.raw = b.raw := UInt64.le_antisymm (UInt64.not_lt.mp g) (UInt64.not_lt.mp h)
    cases a
    cases b
    simpa using this

def next (id : NodeId) : Except Fault NodeId := (successor id.raw).map mk

def display (id : NodeId) : String := "Node(" ++ toString id.raw.toNat ++ ")"

def toValue (id : NodeId) : Json.Value := .nat id.raw.toNat

def ofValue? (v : Json.Value) : Option NodeId := v.uint64?.map mk

end NodeId

end TierTree
