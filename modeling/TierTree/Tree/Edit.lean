import TierTree.Json.Printer
import TierTree.Json.Reader
import TierTree.Json.Record
import TierTree.Policy.Basic

/-!
Edits of the tree. An edit addresses nodes by path and is what a log stores.
-/

namespace TierTree

inductive Edit where
  | mkdirs (path : String)
  | createFile (path : String) (replication : UInt16)
  | delete (path : String) (recursive : Bool)
  | setPolicy (path : String) (policy : PolicyId)
  | createSnapshot (path name : String)
  | deleteSnapshot (path name : String)
  deriving DecidableEq, Repr

namespace Edit

open Json

/-- The name of the kind of an edit. -/
def kind : Edit → String
  | mkdirs .. => "mkdirs"
  | createFile .. => "create_file"
  | delete .. => "delete"
  | setPolicy .. => "set_storage_policy"
  | createSnapshot .. => "create_snapshot"
  | deleteSnapshot .. => "delete_snapshot"

/-- The path an edit addresses. -/
def path : Edit → String
  | mkdirs path => path
  | createFile path _ => path
  | delete path _ => path
  | setPolicy path _ => path
  | createSnapshot path _ => path
  | deleteSnapshot path _ => path

/-- The members of an edit beside its kind and its path. -/
def details : Edit → List (String × Value)
  | mkdirs _ => []
  | createFile _ replication => [("replication", .nat replication.toNat)]
  | delete _ recursive => [("recursive", .bool recursive)]
  | setPolicy _ policy => [("policy_id", policy.toValue)]
  | createSnapshot _ name => [("name", .text name)]
  | deleteSnapshot _ name => [("name", .text name)]

def toValue (e : Edit) : Value :=
  .record ([("op", .text e.kind), ("path", .text e.path)] ++ e.details)

def ofValue? (v : Value) : Option Edit := do
  let (kind, rest) ← v.tagged? "op" Value.maxDepth
  match kind with
  | "mkdirs" =>
      let r ← rest.record? ["path"]
      return .mkdirs (← r.required "path" Value.text?)
  | "create_file" =>
      let r ← rest.record? ["path", "replication"]
      return .createFile (← r.required "path" Value.text?)
        (← r.required "replication" Value.uint16?)
  | "delete" =>
      let r ← rest.record? ["path", "recursive"]
      return .delete (← r.required "path" Value.text?) (← r.required "recursive" Value.bool?)
  | "set_storage_policy" =>
      let r ← rest.record? ["path", "policy_id"]
      return .setPolicy (← r.required "path" Value.text?)
        (← r.required "policy_id" PolicyId.ofValue?)
  | "create_snapshot" =>
      let r ← rest.record? ["path", "name"]
      return .createSnapshot (← r.required "path" Value.text?) (← r.required "name" Value.text?)
  | "delete_snapshot" =>
      let r ← rest.record? ["path", "name"]
      return .deleteSnapshot (← r.required "path" Value.text?) (← r.required "name" Value.text?)
  | _ => none

/-- The edit as a JSON text. -/
def render (e : Edit) : String := e.toValue.render

/-- The edit that a text stands for. -/
def parse? (s : String) : Option Edit := (parse s).bind ofValue?

end Edit

end TierTree
