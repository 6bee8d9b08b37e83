import TierTree.Proofs.Policy.Codec
import TierTree.Service.Config

/-!
Configurations that are read back. The text that is printed for a policy table gives this
table, and the text for the configuration of a service gives the configuration if it is
valid, whether it is read at once or out of a file.
-/

namespace TierTree.Config

open Json Value

theorem ofValue?_toValue (c : Config) : ofValue? c.toValue = some c := by
  simp [ofValue?, toValue, record?_record, Record.withDefault, Record.find?]

theorem plain_toValue (c : Config) : c.toValue.Plain := by
  simp [toValue]

/-- Of the text of a configuration only its validity is left to check. -/
theorem parse_render_eq (c : Config) : parse c.render = c.validate.map fun _ => c := by
  rw [parse, render, Json.parse_render c.plain_toValue, Option.bind_some, ofValue?_toValue]
  change (do c.validate; return c) = _
  cases c.validate <;> rfl

theorem ofFile_encode (text : String) : ofFile (some (Utf8.encode text)) = parse text := by
  rw [ofFile, Option.bind_some, Utf8.decode?_encode]

theorem validate_eq_ok_iff {c : Config} : c.validate = .ok () ↔ 1 ≤ c.defaultReplication.toNat := by
  rw [validate, Nat.one_le_iff_ne_zero, ← UInt16.toNat_zero, ne_eq, UInt16.toNat_inj]
  split
  next hZero => simp [hZero]
  next hSome => simp [hSome]

/-- Tables and configurations are what their texts say. -/
theorem table_and_config_read_back :
    (∀ t : PolicyTable, PolicyTable.parse? (Utf8.encode t.render) = some t) ∧
    ∀ c : Config, 1 ≤ c.defaultReplication.toNat →
      parse c.render = .ok c ∧ ofFile (some (Utf8.encode c.render)) = .ok c := by
  refine ⟨PolicyTable.parse?_render, fun c hReplication => ?_⟩
  have hParse : parse c.render = .ok c := by
    rw [parse_render_eq, validate_eq_ok_iff.mpr hReplication]
    rfl
  exact ⟨hParse, (ofFile_encode c.render).trans hParse⟩

/-- Nothing is lost of a table that could not be put in force, nor of names that have to be
escaped. -/
theorem table_and_config_read_back_escapes :
    let odd : Policy := ⟨⟨255⟩, "\"größe\"\\\x00\n", [], [.ramDisk, .ramDisk], []⟩
    let c : Config := ⟨⟨none, .exact, [odd, odd]⟩, 65535, some ""⟩
    PolicyTable.parse? (Utf8.encode c.table.render) = some c.table ∧
      1 ≤ c.defaultReplication.toNat ∧ parse c.render = .ok c ∧
      ofFile (some (Utf8.encode c.render)) = .ok c := by
  intro odd c
  have hReplication : 1 ≤ c.defaultReplication.toNat := by decide
  exact ⟨table_and_config_read_back.1 c.table, hReplication,
    table_and_config_read_back.2 c hReplication⟩

end TierTree.Config
