import TierTree.Policy.Table
import TierTree.Proofs.Json.Fields

/-!
Policy tables that are read back. What is printed for a table stands for this table alone,
whatever is in it: nothing of it is checked or left out on the way.
-/

namespace TierTree

open Json Value

namespace PolicyId

@[simp] theorem ofValue?_toValue (id : PolicyId) : ofValue? id.toValue = some id := by
  simp [ofValue?, toValue]

@[simp] theorem plain_toValue (id : PolicyId) : id.toValue.Plain := .nat _

@[simp] theorem fits_toValue (id : PolicyId) (room : Nat) : id.toValue.fits room = true :=
  fits_uint8 _

end PolicyId

section Names

@[simp] theorem Medium.plain_toValue (m : Medium) : m.toValue.Plain := .text _

@[simp] theorem NameMatching.ofValue?_toValue (m : NameMatching) : ofValue? m.toValue = some m := by
  cases m <;> decide

@[simp] theorem NameMatching.plain_toValue (m : NameMatching) : m.toValue.Plain := .text _

@[simp] theorem list?_media (media : List Medium) :
    (Value.list Medium.toValue media).list? Medium.ofValue? = some media :=
  list?_list Medium.ofValue?_toValue media

@[simp] theorem option?_text (name : Option String) :
    (Value.option .text name).option? text? = some name :=
  option?_option text?_text (fun _ hNull => by cases hNull) name

end Names

namespace Policy

@[simp] theorem ofValue?_toValue (p : Policy) : ofValue? p.toValue = some p := by
  simp [ofValue?, toValue, record?_record, Record.required, Record.withDefault, Record.find?]

@[simp] theorem plain_toValue (p : Policy) : p.toValue.Plain := by
  simp [toValue]

end Policy

namespace PolicyTable

@[simp] theorem ofValue?_toValue (t : PolicyTable) : ofValue? t.toValue = some t := by
  have hPolicies := list?_list Policy.ofValue?_toValue t.policies
  simp [ofValue?, toValue, record?_record, Record.required, Record.withDefault, Record.find?,
    hPolicies]

@[simp] theorem plain_toValue (t : PolicyTable) : t.toValue.Plain := by
  simp [toValue]

/-- A table is read back from the bytes of its text. -/
theorem parse?_render (t : PolicyTable) : parse? (Utf8.encode t.render) = some t := by
  have hParse := parse_render t.plain_toValue
  rw [parse] at hParse
  rw [parse?, render, hParse, Option.bind_some, ofValue?_toValue]

end PolicyTable

end TierTree
