import TierTree.Json.Printer
import TierTree.Json.Reader
import TierTree.Policy.Basic

/-!
The policy table of a configuration, as it is written. Nothing in it is
checked beyond its form.
-/

namespace TierTree

/-- When two names name the same policy. -/
inductive NameMatching where
  | exact
  | ignoringAsciiCase
  deriving DecidableEq, Repr, Inhabited

namespace NameMatching

def same (m : NameMatching) (left right : String) : Bool :=
  match m with
  | exact => left = right
  | ignoringAsciiCase => Text.matchesIgnoringCase left right

def name : NameMatching → String
  | exact => "exact"
  | ignoringAsciiCase => "ignore_ascii_case"

def toValue (m : NameMatching) : Json.Value := .text m.name

def ofValue? (v : Json.Value) : Option NameMatching :=
  v.name?.bind fun s => [exact, ignoringAsciiCase].find? (·.name = s)

end NameMatching

namespace Policy

def toValue (p : Policy) : Json.Value :=
  .record [
    ("id", p.id.toValue),
    ("name", .text p.name),
    ("storage_types", .list Medium.toValue p.media),
    ("creation_fallbacks", .list Medium.toValue p.creationFallbacks),
    ("replication_fallbacks", .list Medium.toValue p.replicationFallbacks)]

/-- Fallbacks may be left out. -/
def ofValue? (v : Json.Value) : Option Policy := do
  let r ← v.record? ["id", "name", "storage_types", "creation_fallbacks", "replication_fallbacks"]
  return {
    id := ← r.required "id" PolicyId.ofValue?
    name := ← r.required "name" Json.Value.text?
    media := ← r.required "storage_types" (Json.Value.list? Medium.ofValue?)
    creationFallbacks :=
      ← r.withDefault "creation_fallbacks" [] (Json.Value.list? Medium.ofValue?)
    replicationFallbacks :=
      ← r.withDefault "replication_fallbacks" [] (Json.Value.list? Medium.ofValue?) }

end Policy

/-- A table of policies and the name of the one that stands in where a node
has none. -/
structure PolicyTable where
  defaultName : Option String
  matching : NameMatching
  policies : List Policy
  deriving DecidableEq, Repr

namespace PolicyTable

/-- The table used when a configuration has none. -/
def builtin : PolicyTable where
  defaultName := some "HOT"
  matching := .ignoringAsciiCase
  policies := [
    ⟨⟨12⟩, "HOT", [.disk], [], [.archive]⟩,
    ⟨⟨8⟩, "WARM", [.disk, .archive], [.disk, .archive], [.disk, .archive]⟩,
    ⟨⟨4⟩, "COLD", [.archive], [], []⟩]

def toValue (t : PolicyTable) : Json.Value :=
  .record [
    ("default_policy", .option .text t.defaultName),
    ("name_matching", t.matching.toValue),
    ("policies", .list Policy.toValue t.policies)]

/-- The default and the matching may be left out. -/
def ofValue? (v : Json.Value) : Option PolicyTable := do
  let r ← v.record? ["default_policy", "name_matching", "policies"]
  return {
    defaultName := ← r.withDefault "default_policy" none (Json.Value.option? Json.Value.text?)
    matching := ← r.withDefault "name_matching" .ignoringAsciiCase NameMatching.ofValue?
    policies := ← r.required "policies" (Json.Value.list? Policy.ofValue?) }

/-- The table as a JSON text. -/
def render (t : PolicyTable) : String := t.toValue.render

/-- The table that bytes are the text of. -/
def parse? (bytes : List UInt8) : Option PolicyTable :=
  (Json.parseBytes bytes).bind ofValue?

end PolicyTable

end TierTree
