import TierTree.Policy.Placement
import TierTree.Service.Config
import TierTree.Tree.Image

/-!
The service: a tree, the policies in force, and the storage that keeps the
tree. Every edit is in the log before it is made, and a service is opened by
making the edits of the log again on top of the checkpoint.
-/

namespace TierTree

/-- Why a service refuses a call. -/
inductive ServiceError where
  | unknownPolicy (cause : UnknownPolicy)
  | notFound (path : String)
  | malformedTable (cause : TableFault)
  | tree (cause : TreeError)
  | replay (txid : Txid) (cause : TreeError)
  | storage (cause : StorageError)
  | config (cause : ConfigFault)
  deriving DecidableEq, Repr

namespace ServiceError

def message : ServiceError → String
  | unknownPolicy cause => cause.message
  | notFound path => "File/Directory does not exist: " ++ path
  | malformedTable cause => cause.message
  | tree cause => "Namespace error: " ++ cause.message
  | replay txid cause =>
      "Namespace error: Corrupt namespace image: replaying txid " ++ toString txid.toNat ++ ": " ++
        cause.message
  | storage cause => "Storage error: " ++ cause.message
  | config cause => cause.message

/-- A refusal of the tree. A path that leads nowhere is a refusal of its own. -/
def ofTree : TreeError → ServiceError
  | .notFound path => notFound path
  | e => tree e

end ServiceError

/-- A service over a log in `J` and a checkpoint in `C`. `lastApplied` is the
number of the last edit in the tree. -/
structure Service (J C : Type) where
  tree : Tree
  registry : Registry
  defaultReplication : UInt16
  log : J
  vault : C
  lastApplied : Txid

namespace Service

variable {J C : Type} [Journal J] [Vault C]

/-- Make one logged edit again. -/
def replayPayload (txid : Txid) (t : Tree) (payload : String) : Attempt ServiceError Tree :=
  match Edit.parse? payload with
  | none => .error (.refused (.storage (.corruptEdit txid)))
  | some e => ((t.apply e).map (·.2)).mapError (Failure.map (.replay txid))

/-- Make the edits of one transaction again. -/
def replayRecord (t : Tree) (r : CommittedRecord) : Attempt ServiceError Tree :=
  r.payloads.foldlM (replayPayload r.txid) t

/-- The tree of a checkpoint and the number it goes up to; a new tree where
there is no checkpoint. -/
def restore (vault : C) : Except ServiceError (Tree × Txid) :=
  match Vault.load vault with
  | .error e => .error (.storage e)
  | .ok none => .ok (.new, 0)
  | .ok (some c) =>
      match Image.parse? c.payload with
      | none => .error (.storage .unreadable)
      | some image =>
          match Tree.ofImage image with
          | .error f => .error (.tree (.corruptImage f))
          | .ok t => .ok (t, c.txid)

/-- Bring a log that is behind a checkpoint up to its number, so that no edit
to come gets a number the checkpoint covers. -/
def catchUp (log : J) (txid : Txid) : J × Attempt StorageError Unit :=
  if Journal.lastTxid log < txid then Journal.purge log txid else (log, .ok ())

/-- Build a service from a registry and restored parts by making the logged
edits again. -/
def replay (config : Config) (registry : Registry) (log : J) (vault : C) (t : Tree)
    (txid : Txid) : Attempt ServiceError (Service J C) := do
  let records := Journal.committedSince log txid
  let tree ← records.foldlM replayRecord t
  return {
    tree := tree
    registry := registry
    defaultReplication := config.defaultReplication
    log := log
    vault := vault
    lastApplied := (records.getLast?.map (·.txid)).getD txid }

/-- What has to be right before the log is looked at. -/
def prepare (config : Config) (vault : C) : Except ServiceError (Registry × Tree × Txid) :=
  match config.validate with
  | .error f => .error (.config f)
  | .ok () =>
      match Registry.load config.table with
      | .error f => .error (.malformedTable f)
      | .ok registry => (restore vault).map (registry, ·)

/-- Open a service over a log and a checkpoint. The log comes back whether or
not the service could be opened. -/
def openOver (config : Config) (log : J) (vault : C) :
    J × Attempt ServiceError (Service J C) :=
  match prepare config vault with
  | .error e => (log, .error (.refused e))
  | .ok (registry, t, txid) =>
      match catchUp log txid with
      | (log, .error e) => (log, .error (e.map .storage))
      | (log, .ok ()) => (log, replay config registry log vault t txid)

/-- Log an edit that has been planned, then carry it out. A failed edit is
taken back out of the log. `id` is the identifier of its transaction. -/
def commit (s : Service J C) (id : TransactionId) (e : Edit) (p : Plan) :
    Service J C × Attempt ServiceError NodeId :=
  let (log, tx) := Journal.start s.log id
  let giveUp (log : J) (tx : Transaction) (cause : StorageError) :=
    ({ s with log := if tx.isActive then (Journal.rollback log tx).1 else log },
      Except.error (.refused (.storage cause)))
  match Journal.write log tx e.render with
  | (log, .error (.refused cause)) => giveUp log tx cause
  | (log, .error (.fault f)) => ({ s with log := log }, .error (.fault f))
  | (log, .ok tx) =>
      match Journal.commit log tx with
      | (log, .error (.refused cause)) => giveUp log tx cause
      | (log, .error (.fault f)) => ({ s with log := log }, .error (.fault f))
      | (log, .ok (_, txid)) =>
          match s.tree.execute p with
          | .error f => ({ s with log := log }, .error (.fault f))
          | .ok (node, tree) =>
              ({ s with tree := tree, log := log, lastApplied := txid }, .ok node)

/-- Plan an edit, log it and carry it out. The node it is about comes back. -/
def apply (s : Service J C) (id : TransactionId) (e : Edit) :
    Service J C × Attempt ServiceError NodeId :=
  match s.tree.plan e with
  | .error cause => (s, .error (cause.map .ofTree))
  | .ok p => s.commit id e p

/-- Make a directory and those above it that are missing. -/
def mkdirs (s : Service J C) (id : TransactionId) (path : String) :
    Service J C × Attempt ServiceError NodeId :=
  s.apply id (.mkdirs path)

/-- Create a file, with the default replication where none is given. -/
def createFile (s : Service J C) (id : TransactionId) (path : String)
    (replication : Option UInt16) : Service J C × Attempt ServiceError NodeId :=
  s.apply id (.createFile path (replication.getD s.defaultReplication))

/-- Delete what is at a path. Where nothing is, the answer is `false`. -/
def delete (s : Service J C) (id : TransactionId) (path : String) (recursive : Bool) :
    Service J C × Attempt ServiceError Bool :=
  let e := Edit.delete path recursive
  match s.tree.plan e with
  | .error (.refused (.notFound _)) => (s, .ok false)
  | .error cause => (s, .error (cause.map .ofTree))
  | .ok p =>
      let (s, result) := s.commit id e p
      (s, result.map fun _ => true)

/-- Give a node the policy with a name. -/
def setPolicy (s : Service J C) (id : TransactionId) (path policyName : String) :
    Service J C × Attempt ServiceError Unit :=
  match s.registry.policyByName policyName with
  | .error cause => (s, .error (.refused (.unknownPolicy cause)))
  | .ok p =>
      let (s, result) := s.apply id (.setPolicy path p.id)
      (s, result.map fun _ => ())

/-- Take a snapshot of a directory. The path of the snapshot comes back. -/
def createSnapshot (s : Service J C) (id : TransactionId) (path name : String) :
    Service J C × Attempt ServiceError String :=
  let (s, result) := s.apply id (.createSnapshot path name)
  (s, result.map fun _ => Path.join (Path.join path Path.snapshotDir) name)

def deleteSnapshot (s : Service J C) (id : TransactionId) (path name : String) :
    Service J C × Attempt ServiceError Unit :=
  let (s, result) := s.apply id (.deleteSnapshot path name)
  (s, result.map fun _ => ())

/-- Every policy in force, in the order of their numbers. -/
def policies (s : Service J C) : List Policy := s.registry.policies

def list (s : Service J C) (path : String) : Attempt ServiceError (List FileStatus) :=
  (s.tree.list path).mapError (Failure.map .ofTree)

def info (s : Service J C) (path : String) : Attempt ServiceError FileStatus :=
  (s.tree.info path).mapError (Failure.map .ofTree)

/-- The snapshots of a directory, in the order of their names. -/
def snapshots (s : Service J C) (path : String) : Except ServiceError (List Snapshot) :=
  (s.tree.snapshotsAt path).mapError .ofTree

/-- The status of a path below a snapshot of a directory. -/
def infoInSnapshot (s : Service J C) (dir name subpath : String) :
    Attempt ServiceError FileStatus :=
  match s.tree.resolveInSnapshot dir name subpath with
  | .error e => .error (.refused (.ofTree e))
  | .ok resolved => (s.tree.statusOf resolved).mapError .fault

/-- Media for the replicas of the file at a path, and for a new file with the
default replication where the path leads to a directory. -/
def placement (s : Service J C) (path : String) (unavailable : List Medium) :
    Attempt ServiceError Placement :=
  (s.info path).map fun status =>
    let replication := if status.isDirectory then s.defaultReplication else status.replication
    .resolve s.registry status.policy replication unavailable

/-- Write a checkpoint and drop the edits that it covers from the log. The
number it goes up to comes back. -/
def save (s : Service J C) : Service J C × Attempt ServiceError Txid :=
  let txid := s.lastApplied
  match Vault.save s.vault (.stamp txid s.tree.toImage.render) with
  | (vault, .error e) => ({ s with vault := vault }, .error (.refused (.storage e)))
  | (vault, .ok ()) =>
      let (log, result) := Journal.purge s.log txid
      ({ s with vault := vault, log := log },
        (result.map fun _ => txid).mapError (Failure.map .storage))

end Service

/-- A service that keeps nothing beyond its own life. -/
abbrev MemoryService := Service Ledger CheckpointSlot

/-- A service that keeps its log and its checkpoint in files. -/
abbrev FileService := Service LogFile CheckpointFile

/-- Open the service whose log and checkpoint are in files. A missing log
counts as an empty one. -/
def FileService.openFiles (config : Config) (log : Option (List UInt8)) (logBlocked : Bool)
    (vault : CheckpointFile) : LogFile × Attempt ServiceError FileService :=
  let loaded := { LogFile.load (log.getD []) with blocked := logBlocked }
  match config.storageDir with
  | none => (loaded, .error (.refused (.config .noStorageDir)))
  | some _ => Service.openOver config loaded vault

end TierTree
