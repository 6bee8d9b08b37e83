import TierTree.Json.Value

/-!
Records in JSON. A record is given as an object or as an array of its fields
in order, and a choice between records carries the name of the chosen one as a
tag.
-/

namespace TierTree.Json

/-- The fields of a record as they are given, by name or by position. -/
structure Record where
  positional : Bool
  fields : List (String × Value)

namespace Record

/-- The value given for a field. -/
def find? (r : Record) (name : String) : Option Value :=
  (r.fields.find? (·.1 = name)).map (·.2)

/-- A field that has to be given. -/
def required {α : Type} (r : Record) (name : String) (decode : Value → Option α) : Option α :=
  (r.find? name).bind decode

/-- A field that stands for `none` when it is `null`, or when the record is
given by name without it. -/
def optional {α : Type} (r : Record) (name : String) (decode : Value → Option α) :
    Option (Option α) :=
  match r.find? name with
  | some v => v.option? decode
  | none => if r.positional then none else some none

/-- A field with a value of its own when it is not given. -/
def withDefault {α : Type} (r : Record) (name : String) (default : α)
    (decode : Value → Option α) : Option α :=
  match r.find? name with
  | some v => decode v
  | none => some default

end Record

namespace Value

/-- The fields of a record whose fields are `names` in order. None of them may
be given twice; others are passed over in an object and are too many in an
array. -/
def record? (names : List String) : Value → Option Record
  | .object members => do
      let fields ← members.mapM fun m => m.1.map (·, m.2)
      if names.all fun n => fields.countP (·.1 = n) ≤ 1 then some ⟨false, fields⟩ else none
  | .array items =>
      if items.length ≤ names.length then some ⟨true, names.zip items⟩ else none
  | _ => none

/-- The name under the tag of a tagged record, and the record without it. All
of it is taken in before the tag is looked at, so all of it has to fit; `room`
is the nesting depth that is left. -/
def tagged? (tag : String) (room : Nat) (v : Value) : Option (String × Value) :=
  if v.fits room then
    match v with
    | .object members =>
        match members.partition (·.1 = some tag) with
        | ([(_, .string (some name))], rest) => some (name, .object rest)
        | _ => none
    | .array (.string (some name) :: rest) => some (name, .array rest)
    | _ => none
  else none

/-- The nesting depth of containers that can be taken in whole. -/
def maxDepth : Nat := 127

end Value

end TierTree.Json
