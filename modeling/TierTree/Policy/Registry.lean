import TierTree.Policy.Table

/-!
The registry of policies in force. It is loaded once from a table, which has
to be well formed, and never changes.
-/

namespace TierTree

/-- What makes a table unfit to be loaded. -/
inductive TableFault where
  | unreadable
  | noPolicies
  | idOutOfRange (name : String) (id : PolicyId)
  | blankName (id : PolicyId)
  | noMedia (name : String)
  | repeatedId (id : PolicyId)
  | repeatedName (name : String)
  | noDefault
  | unknownDefault (name : String)
  deriving DecidableEq, Repr

namespace TableFault

def detail : TableFault → String
  | unreadable => "the document cannot be read"
  | noPolicies => "no storage policies are defined"
  | idOutOfRange name id =>
      "policy " ++ name ++ " has id " ++ id.display ++ " outside 1..=" ++ toString PolicyId.largest
  | blankName id => "policy with id " ++ id.display ++ " has an empty name"
  | noMedia name => "policy " ++ name ++ " has no storage types"
  | repeatedId id => "duplicate policy id " ++ id.display
  | repeatedName name => "duplicate policy name " ++ name
  | noDefault => "no default storage policy is named"
  | unknownDefault name => "default policy " ++ name ++ " is not defined"

def message (f : TableFault) : String := "Malformed storage policy configuration: " ++ f.detail

end TableFault

/-- A name that no policy in force has. -/
structure UnknownPolicy where
  name : String
  deriving DecidableEq, Repr

def UnknownPolicy.message (u : UnknownPolicy) : String :=
  "Cannot find a storage policy with the name " ++ u.name

/-- The policies in force by number, and the number of the one that stands in
where no policy is specified. This one is in force itself. -/
structure Registry where
  byId : SortedMap PolicyId Policy
  defaultId : PolicyId
  matching : NameMatching
  registered : (byId.get? defaultId).isSome = true
  deriving DecidableEq, Repr

namespace Registry

/-- Policies by their numbers. -/
def byNumber (policies : List Policy) : SortedMap PolicyId Policy :=
  .ofList (policies.map fun p => (p.id, p))

theorem isSome_get?_byNumber {policies : List Policy} {p : Policy} (h : p ∈ policies) :
    ((byNumber policies).get? p.id).isSome = true := by
  rw [← SortedMap.mem_keys_iff, byNumber, SortedMap.mem_keys_ofList, List.map_map]
  exact List.mem_map_of_mem h

/-- What is wrong with an entry of a table after the entries before it. -/
def entryFault? (matching : NameMatching) (earlier : List Policy) (p : Policy) :
    Option TableFault :=
  if !p.id.isExplicit then some (.idOutOfRange p.name p.id)
  else if Text.trim p.name = "" then some (.blankName p.id)
  else if p.media = [] then some (.noMedia p.name)
  else if earlier.any (·.id = p.id) then some (.repeatedId p.id)
  else if earlier.any (matching.same ·.name p.name) then some (.repeatedName p.name)
  else none

/-- The first fault among entries that follow some others. -/
def firstFault? (matching : NameMatching) : List Policy → List Policy → Option TableFault
  | _, [] => none
  | earlier, p :: rest =>
      match entryFault? matching earlier p with
      | some f => some f
      | none => firstFault? matching (earlier ++ [p]) rest

/-- Check a table and put its policies in force. -/
def load (t : PolicyTable) : Except TableFault Registry :=
  if t.policies = [] then .error .noPolicies
  else
    match firstFault? t.matching [] t.policies with
    | some f => .error f
    | none =>
        match t.defaultName with
        | none => .error .noDefault
        | some name =>
            match found : t.policies.find? (t.matching.same ·.name name) with
            | none => .error (.unknownDefault name)
            | some p =>
                have registered := isSome_get?_byNumber (List.mem_of_find?_eq_some found)
                .ok ⟨byNumber t.policies, p.id, t.matching, registered⟩

/-- The policy with a number. -/
def policy? (r : Registry) (id : PolicyId) : Option Policy := r.byId.get? id

def contains (r : Registry) (id : PolicyId) : Bool := (r.policy? id).isSome

/-- The policy that stands in where none is specified. -/
def defaultPolicy (r : Registry) : Policy := (r.policy? r.defaultId).get r.registered

/-- Every policy, in the order of their numbers. -/
def policies (r : Registry) : List Policy := r.byId.values

/-- The policy with a name; an unknown name is never replaced by another. -/
def policyByName (r : Registry) (name : String) : Except UnknownPolicy Policy :=
  match r.policies.find? (r.matching.same ·.name name) with
  | some p => .ok p
  | none => .error ⟨name⟩

end Registry

end TierTree
