import TierTree.Json.Record
import TierTree.Text.Blank
import TierTree.Text.Case

/-!
The kinds of physical storage. There is no order of preference between media
outside the lists of a policy.
-/

namespace TierTree

inductive Medium where
  | disk
  | ssd
  | archive
  | ramDisk
  deriving DecidableEq, Repr

namespace Medium

def all : List Medium := [disk, ssd, archive, ramDisk]

def name : Medium → String
  | disk => "DISK"
  | ssd => "SSD"
  | archive => "ARCHIVE"
  | ramDisk => "RAM_DISK"

/-- The place of a medium among all of them. -/
def index : Medium → Nat
  | disk => 0
  | ssd => 1
  | archive => 2
  | ramDisk => 3

/-- Data on a transient medium does not survive a restart. -/
def isTransient (m : Medium) : Bool := m = ramDisk

/-- The medium with exactly this name. -/
def ofName? (s : String) : Option Medium := all.find? (·.name = s)

@[simp] theorem ofName?_name (m : Medium) : ofName? m.name = some m := by
  cases m <;> decide

/-- A text that names no medium. -/
structure Unknown where
  text : String
  deriving DecidableEq, Repr

def Unknown.message (u : Unknown) : String := "Unknown storage type: " ++ u.text

/-- The medium that a person names: blanks around the name and the case of
its letters do not matter. -/
def parse (s : String) : Except Unknown Medium :=
  let trimmed := Text.trim s
  match all.find? fun m => Text.matchesIgnoringCase m.name trimmed with
  | some m => .ok m
  | none => .error ⟨trimmed⟩

def toValue (m : Medium) : Json.Value := .text m.name

def ofValue? (v : Json.Value) : Option Medium := v.name?.bind ofName?

@[simp] theorem ofValue?_toValue (m : Medium) : ofValue? m.toValue = some m := by
  simp [ofValue?, toValue, Json.Value.text, Json.Value.name?]

end Medium

end TierTree
