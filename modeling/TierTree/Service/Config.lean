import TierTree.Checkpoint
import TierTree.Log.File
import TierTree.Policy.Table

/-!
The configuration of a service.
-/

namespace TierTree

/-- Why a configuration cannot be used. -/
inductive ConfigFault where
  | unreadable
  | zeroReplication
  | noStorageDir
  deriving DecidableEq, Repr

def ConfigFault.message : ConfigFault → String
  | unreadable => "Configuration error: the document cannot be read"
  | zeroReplication => "Configuration error: default_replication must be at least 1"
  | noStorageDir => "Configuration error: storage_dir is required for a file-backed namesystem"

/-- A policy table, the replication of files created without one, and the
directory of the files of the service. -/
structure Config where
  table : PolicyTable
  defaultReplication : UInt16
  storageDir : Option String
  deriving DecidableEq, Repr

namespace Config

/-- The configuration of a document that says nothing. -/
def default : Config := ⟨.builtin, 3, none⟩

def validate (c : Config) : Except ConfigFault Unit :=
  if c.defaultReplication = 0 then .error .zeroReplication else .ok ()

def toValue (c : Config) : Json.Value :=
  .record [
    ("policies", c.table.toValue),
    ("default_replication", .nat c.defaultReplication.toNat),
    ("storage_dir", .option .text c.storageDir)]

def ofValue? (v : Json.Value) : Option Config := do
  let r ← v.record? ["policies", "default_replication", "storage_dir"]
  return {
    table := ← r.withDefault "policies" default.table PolicyTable.ofValue?
    defaultReplication :=
      ← r.withDefault "default_replication" default.defaultReplication Json.Value.uint16?
    storageDir := ← r.withDefault "storage_dir" none (Json.Value.option? Json.Value.text?) }

/-- The configuration as a JSON text. -/
def render (c : Config) : String := c.toValue.render

/-- Read a configuration from a text and check it. -/
def parse (s : String) : Except ConfigFault Config :=
  match (Json.parse s).bind ofValue? with
  | none => .error .unreadable
  | some c => do
      c.validate
      return c

/-- Read a configuration from a file, which has to be there and to be text. -/
def ofFile (content : Option (List UInt8)) : Except ConfigFault Config :=
  match content.bind Utf8.decode? with
  | none => .error .unreadable
  | some s => parse s

/-- A file in a directory. -/
def inDir (dir file : String) : String :=
  if dir = "" ∨ dir.toList.getLast? = some '/' then dir ++ file else dir ++ "/" ++ file

/-- Where the log is. -/
def logPath? (c : Config) : Option String := c.storageDir.map (inDir · LogFile.fileName)

/-- Where the checkpoint is. -/
def checkpointPath? (c : Config) : Option String :=
  c.storageDir.map (inDir · CheckpointFile.fileName)

end Config

end TierTree
