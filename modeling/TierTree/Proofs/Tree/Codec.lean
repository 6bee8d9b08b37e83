import TierTree.Proofs.Policy.Codec
import TierTree.Tree.Image

/-!
Edits and images that are read back. What is printed for an edit of the tree
or for an image of it stands for that edit and that image alone.
-/

namespace TierTree

open Json Value

section Scalars

@[simp] theorem NodeId.ofValue?_toValue (id : NodeId) : ofValue? id.toValue = some id := by
  simp [ofValue?, toValue]

@[simp] theorem NodeId.plain_toValue (id : NodeId) : id.toValue.Plain := .nat _

@[simp] theorem NodeId.fits_toValue (id : NodeId) (room : Nat) : id.toValue.fits room = true :=
  fits_uint64 _

end Scalars

namespace Edit

theorem ofValue?_toValue (e : Edit) : ofValue? e.toValue = some e := by
  cases e <;>
    simp [toValue, ofValue?, kind, path, details, maxDepth, tagged?_record, record?_record,
      Record.required, Record.find?]

theorem plain_toValue (e : Edit) : e.toValue.Plain := by
  cases e <;> simp [toValue, details]

/-- An edit is read back from its text. -/
theorem parse?_render (e : Edit) : parse? e.render = some e := by
  rw [parse?, render, parse_render e.plain_toValue, Option.bind_some, ofValue?_toValue]

end Edit

namespace Snapshot

theorem ofValue?_toValue (s : Snapshot) : ofValue? s.toValue = some s := by
  simp [ofValue?, toValue, record?_record, Record.required, Record.find?]

@[simp] theorem plain_toValue (s : Snapshot) : s.toValue.Plain := by
  simp [toValue]

end Snapshot

section Children
variable (children : SortedMap String NodeId)

/-- The value of the children of a directory. -/
def childrenValue : Value := .record (children.entries.map fun e => (e.1, e.2.toValue))

theorem mapM_bindings (bindings : List (String × NodeId)) :
    ((bindings.map fun e => (e.1, e.2.toValue)).map fun m => (some m.1, m.2)).mapM
      (fun m : Option String × Value => do return (← m.1, ← NodeId.ofValue? m.2)) =
    some bindings := by
  induction bindings with
  | nil => rfl
  | cons e rest ih => simp_all

theorem childrenOfValue?_childrenValue :
    Content.childrenOfValue? (childrenValue children) = some children := by
  rw [childrenValue, Value.record, Content.childrenOfValue?, mapM_bindings]
  simp [SortedMap.ofList_entries]

@[simp] theorem fits_childrenValue (room : Nat) :
    (childrenValue children).fits (room + 1) = true := by
  refine fits_record fun m hMem => ?_
  obtain ⟨e, _, rfl⟩ := List.mem_map.mp hMem
  exact e.2.fits_toValue room

@[simp] theorem plain_childrenValue : (childrenValue children).Plain := by
  refine .object fun m hMem => ?_
  obtain ⟨e, _, rfl⟩ := List.mem_map.mp hMem
  exact e.2.plain_toValue

end Children

namespace Content

theorem toValue_directory (children : SortedMap String NodeId) :
    (directory children).toValue =
      .record [("type", .text "directory"), ("children", childrenValue children)] :=
  rfl

/-- Contents are read back where there is room for them. -/
theorem ofValue?_toValue (c : Content) (room : Nat) :
    ofValue? (room + 2) c.toValue = some c := by
  cases c with
  | file replication =>
      simp [ofValue?, toValue, tagged?_record, record?_record, Record.required, Record.find?]
  | directory children =>
      simp [ofValue?, toValue_directory, tagged?_record, record?_record, Record.required,
        Record.find?, childrenOfValue?_childrenValue]

@[simp] theorem plain_toValue (c : Content) : c.toValue.Plain := by
  cases c with
  | file replication => simp [toValue]
  | directory children => simp [toValue_directory]

end Content

section Versions

@[simp] theorem option?_parent (parent : Option NodeId) :
    (Value.option NodeId.toValue parent).option? NodeId.ofValue? = some parent :=
  option?_option NodeId.ofValue?_toValue (fun _ hNull => by cases hNull) parent

theorem Node.ofValue?_toValue (n : Node) (room : Nat) :
    ofValue? (room + 3) n.toValue = some n := by
  simp [ofValue?, toValue, record?_record, Record.required, Record.optional, Record.find?,
    Content.ofValue?_toValue]

@[simp] theorem Node.plain_toValue (n : Node) : n.toValue.Plain := by
  simp [toValue]

theorem Version.ofValue?_toValue (v : Version) (room : Nat) :
    ofValue? (room + 4) v.toValue = some v := by
  have hState : (Value.option Node.toValue v.state).option? (Node.ofValue? (room + 3)) =
      some v.state :=
    option?_option (Node.ofValue?_toValue · room) (fun _ hNull => by cases hNull) v.state
  simp [ofValue?, toValue, record?_record, Record.required, Record.optional, Record.find?, hState]

@[simp] theorem Version.plain_toValue (v : Version) : v.toValue.Plain := by
  simp [toValue]

theorem NodeRecord.ofValue?_toValue (r : NodeRecord) (room : Nat) :
    ofValue? (room + 6) r.toValue = some r := by
  have hVersions := list?_list (Version.ofValue?_toValue · room) r.versions
  simp [ofValue?, toValue, record?_record, Record.required, Record.find?, hVersions]

@[simp] theorem NodeRecord.plain_toValue (r : NodeRecord) : r.toValue.Plain := by
  simp [toValue]

end Versions

namespace Image

theorem ofValue?_toValue (i : Image) : ofValue? i.toValue = some i := by
  have hNodes := list?_list (NodeRecord.ofValue?_toValue · 119) i.nodes
  have hSnapshots := list?_list Snapshot.ofValue?_toValue i.snapshots
  simp [ofValue?, toValue, record?_record, Record.required, Record.find?, maxDepth, hNodes,
    hSnapshots]

theorem plain_toValue (i : Image) : i.toValue.Plain := by
  simp [toValue]

/-- An image is read back from its text. -/
theorem parse?_render (i : Image) : parse? i.render = some i := by
  rw [parse?, render, parse_render i.plain_toValue, Option.bind_some, ofValue?_toValue]

end Image

end TierTree
