import TidyTrig.Disk
import TidyTrig.Settings
import TidyTrig.Toml.Reader

/-!
# Configuration files

Settings as a TOML file. Each group of settings is a table whose keys are all known, or an array
with the settings in their order; what is left out keeps its default.
-/

namespace TidyTrig

namespace Toml.Value

def string? : Value → Option String
  | .string text => some text
  | _ => none

def boolean? : Value → Option Bool
  | .boolean b => some b
  | _ => none

def natural? : Value → Option Nat
  | .integer n => if 0 ≤ n then some n.toNat else none
  | _ => none

end Toml.Value

/-- The keys of a group of settings in order, each with how its value changes the settings. -/
abbrev Schema (α : Type) := List (String × (Toml.Value → α → Option α))

namespace Schema

variable {α : Type}

/-- Takes settings by their keys. -/
def ofEntries (schema : Schema α) (settings : α) : Toml.Entries → Option α
  | [] => some settings
  | (key, v) :: rest => do ofEntries schema (← (← schema.lookup key) v settings) rest

/-- Takes settings by their order. What goes on after the last one is not looked at. -/
def ofItems (settings : α) : Schema α → List Toml.Value → Option α
  | (_, change) :: schema, v :: rest => do ofItems (← change v settings) schema rest
  | _, _ => some settings

/-- Takes settings from a value. -/
def ofValue (schema : Schema α) (settings : α) : Toml.Value → Option α
  | .table _ entries => schema.ofEntries settings entries
  | .array items => ofItems settings schema items
  | .tables items => ofItems settings schema (items.map (.table .header))
  | _ => none

end Schema

def FormatSettings.schema : Schema FormatSettings :=
  [("indent", fun v s => do some { s with indent := ← v.string? }),
    ("base_iri", fun v s => do some { s with baseIri := some (← v.string?) }),
    ("rdf_type_keyword", fun v s => do some { s with usesTypeKeyword := ← v.boolean? })]

def ValidateSettings.schema : Schema ValidateSettings :=
  [("marker_category", fun v s => do some { s with category := ← v.string? }),
    ("base_iri", fun v s => do some { s with baseIri := some (← v.string?) }),
    ("warn_unused_prefixes", fun v s => do some { s with warnsUnused := ← v.boolean? }),
    ("max_problems", fun v s => do some { s with maxProblems := ← v.natural? })]

namespace Settings

def schema : Schema Settings :=
  [("format", fun v s => do some { s with format := ← FormatSettings.schema.ofValue {} v }),
    ("validate", fun v s => do some { s with validate := ← ValidateSettings.schema.ofValue {} v })]

/-- The settings of a configuration file, unless it is no valid one. -/
def ofToml? (text : String) : Option Settings := do schema.ofEntries {} (← Toml.read? text)

/-- Loads a configuration file. -/
def load (disk : Disk) (path : String) : Except Failure Settings :=
  match disk.readText path with
  | .error fault => .error (.document (.access path fault.message))
  | .ok text =>
    match ofToml? text with
    | some settings => .ok settings
    | none => .error .config

end Settings
end TidyTrig
