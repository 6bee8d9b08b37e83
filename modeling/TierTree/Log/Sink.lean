/-!
A file that is only appended to and cut back, with a plan for when its
operations go wrong. Failures are part of the value, so that whatever happens
to a log can be told from its sink.
-/

namespace TierTree

/-- An operation of the file system that went wrong. -/
inductive IoError where
  | append
  | sync
  | truncate
  | blocked
  | reopen
  deriving DecidableEq, Repr

def IoError.message : IoError → String
  | append => "injected append failure"
  | sync => "injected sync failure"
  | truncate => "injected truncate failure"
  | blocked => "a directory is in the way"
  | reopen => "the new file cannot be opened"

/-- When operations go wrong. -/
inductive FailurePlan where
  | never
  | tornAppendsAfter (count : Nat)
  | syncsAfter (count : Nat)
  deriving DecidableEq, Repr

/-- The bytes of a file, the plan for its failures, and how many operations
went well under this plan. -/
structure Sink where
  bytes : List UInt8
  plan : FailurePlan
  failTruncate : Bool
  appends : Nat
  syncs : Nat
  deriving DecidableEq, Repr

namespace Sink

/-- A file that never fails. -/
def reliable (bytes : List UInt8) : Sink := ⟨bytes, .never, false, 0, 0⟩

/-- Go over to another plan and count anew. -/
def setPlan (s : Sink) (plan : FailurePlan) (failTruncate : Bool) : Sink :=
  ⟨s.bytes, plan, failTruncate, 0, 0⟩

def size (s : Sink) : Nat := s.bytes.length

/-- Append bytes. A torn append leaves the first half of them behind. -/
def append (s : Sink) (bytes : List UInt8) : Sink × Except IoError Unit :=
  let whole : Sink := { s with bytes := s.bytes ++ bytes, appends := s.appends + 1 }
  match s.plan with
  | .tornAppendsAfter count =>
      if count ≤ s.appends then
        ({ s with bytes := s.bytes ++ bytes.take (bytes.length / 2) }, .error .append)
      else (whole, .ok ())
  | _ => (whole, .ok ())

/-- Make what was appended durable. -/
def sync (s : Sink) : Sink × Except IoError Unit :=
  match s.plan with
  | .syncsAfter count =>
      if count ≤ s.syncs then (s, .error .sync) else ({ s with syncs := s.syncs + 1 }, .ok ())
  | _ => ({ s with syncs := s.syncs + 1 }, .ok ())

/-- Bytes cut to a length, or filled up to it with zeros. -/
def resize (bytes : List UInt8) (length : Nat) : List UInt8 :=
  bytes.take length ++ List.replicate (length - bytes.length) 0

/-- Cut the file to a length. -/
def truncate (s : Sink) (length : Nat) : Sink × Except IoError Unit :=
  if s.failTruncate then (s, .error .truncate)
  else ({ s with bytes := resize s.bytes length }, .ok ())

/-- Go on with another file in the place of this one, under the same plan. -/
def replace (s : Sink) (bytes : List UInt8) : Sink := { s with bytes := bytes }

end Sink

end TierTree
