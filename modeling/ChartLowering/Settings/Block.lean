import ChartLowering.Settings.Basic

/-!
# Blocks of settings

The settings of one kind of mark are a block, found by the name of the mark. Sections come first,
then the names that settings take for themselves, and the further members last.
-/

namespace ChartLowering.Settings

/-- The members of a section as a block, for looking up single ones. -/
def openBlock (members : Record Value) : Record Value := Value.openedMembers .plain members

/-- The members of a section that are not `null`. -/
def givenBlock (members : Record Value) : Record Value :=
  Value.openedMembers .given (members.filter fun m ↦ !m.2.isNull)

/-- The members of a further block. Those of a checked field definition count if they are given. -/
def furtherBlock (v : Value) : Record Value :=
  match v with
  | .object members => members
  | .fieldDef _ => (v.opened .given).members?.getD []
  | _ => []

/-- How settings are read: further members are kept, and the title of counts goes by either of its
names. -/
def readingRules : Record Value :=
  [("extra", .text "allow"), ("populate_by_name", .bool true),
   ("validate_by_alias", .bool true), ("validate_by_name", .bool true)]

/-- The names that settings take for what they hold, and for how they are made, checked, copied and
written. -/
def takenNames : List String :=
  ["count_title", "load", "copy", "dict", "json", "schema", "schema_json", "validate", "construct",
   "update_forward_refs"] ++
  ["config"].map ("mark_" ++ ·) ++
  ["env", "orm", "toml"].map ("from_" ++ ·) ++
  ["file", "obj", "raw"].map ("parse_" ++ ·) ++
  ["computed_fields", "construct", "copy", "dump", "dump_json", "fields", "fields_set",
   "json_schema", "parametrized_name", "post_init", "rebuild", "validate", "validate_json",
   "validate_strings"].map ("model_" ++ ·) ++
  ["abc_impl", "apply_mapping", "calculate_keys", "copy_and_set_values", "get_value", "iter",
   "setattr_handler"].map ("_" ++ ·)

/-- Is a name taken by settings themselves? Names between double low lines are kept for them. -/
def isTaken (name : String) : Bool :=
  takenNames.contains name || (name.startsWith "__" && name.endsWith "__")

/-- The block of settings under a name, empty if there is none. -/
def block (s : Settings) (name : String) : Record Value :=
  match name with
  | "mark" => givenBlock s.mark.members
  | "boxplot" => givenBlock s.boxplot.members
  | "errorbar" => givenBlock s.errorbar.members
  | "scale" => givenBlock s.scale.members
  | "model_config" => readingRules
  | "model_extra" => s.extras
  | name =>
      match s.markBlocks.get? name with
      | some block => block
      | none => if isTaken name then [] else furtherBlock (s.extras.value name)

end ChartLowering.Settings
