import TidyTrig.Diagnostic
import TidyTrig.Failure

/-!
# Markers

An editor keeps markers with a document, each under the category of what made it. A
`MarkerStore` can clear a category and attach a marker, and may refuse either, which changes
nothing.
-/

namespace TidyTrig

/-- Something that keeps markers; `σ` is its state. -/
class MarkerStore (σ : Type) where
  clear : String → EStateM MarkerError σ Unit
  create : String → Diagnostic → EStateM MarkerError σ Unit

/-- Markers in the order of their creation, each with its category. -/
structure MarkerTable where
  entries : List (String × Diagnostic)
deriving DecidableEq

namespace MarkerTable

def empty : MarkerTable := ⟨[]⟩

/-- The markers of a category in the order of their creation. -/
def markers (t : MarkerTable) (category : String) : List Diagnostic :=
  (t.entries.filter (·.1 = category)).map (·.2)

/-- The categories that have markers. -/
def categories (t : MarkerTable) : List String := (t.entries.map (·.1)).eraseDups

def size (t : MarkerTable) : Nat := t.entries.length

def clear (t : MarkerTable) (category : String) : MarkerTable :=
  ⟨t.entries.filter (·.1 ≠ category)⟩

def create (t : MarkerTable) (category : String) (d : Diagnostic) : MarkerTable :=
  ⟨t.entries ++ [(category, d)]⟩

instance : MarkerStore MarkerTable where
  clear category := modify (·.clear category)
  create category d := modify (·.create category d)

end MarkerTable

/-- A table of markers that may refuse to be changed. -/
structure GuardedMarkers where
  table : MarkerTable
  /-- Why no category can be cleared. -/
  clearing : Option MarkerError
  /-- The severities of which no marker is attached. -/
  refused : List Severity
deriving DecidableEq

namespace GuardedMarkers

instance : MarkerStore GuardedMarkers where
  clear category := fun s =>
    match s.clearing with
    | some e => .error e s
    | none => .ok () { s with table := s.table.clear category }
  create category d := fun s =>
    if d.severity ∈ s.refused then .error (.rejected "refused") s
    else .ok () { s with table := s.table.create category d }

end GuardedMarkers
end TidyTrig
