import TidyTrig.Marker

/-!
# Validation cycles

`validateEvents` runs one cycle: the markers of its category are cleared, then each problem is
attached as it arrives, the same one only once, and the cycle ends with the events or where the
reader gives up. A marker that the store refuses is counted and the cycle goes on.
-/

namespace TidyTrig

/-- The outcome of a validation cycle. -/
structure Report where
  /-- The diagnostics in the order of their problems. -/
  diagnostics : List Diagnostic
  /-- How many of them the store refused. -/
  failedMarkers : Nat
  /-- Whether the reader gave up. -/
  isAborted : Bool
deriving DecidableEq

namespace Report

def empty : Report := ⟨[], 0, false⟩

/-- How many diagnostics are of a severity. -/
def count (r : Report) (severity : Severity) : Nat :=
  r.diagnostics.countP (·.severity = severity)

def errors (r : Report) : Nat := r.count .error

def warnings (r : Report) : Nat := r.count .warning

def hasErrors (r : Report) : Bool := 0 < r.errors

end Report

variable {σ : Type} [MarkerStore σ]

/-- Attaches a marker and adds its diagnostic to the report. -/
def attach (category : String) (d : Diagnostic) (r : Report) : EStateM Failure σ Report :=
  fun store =>
    let added := { r with diagnostics := r.diagnostics ++ [d] }
    match MarkerStore.create category d store with
    | .ok () store => .ok added store
    | .error _ store => .ok { added with failedMarkers := r.failedMarkers + 1 } store

/-- Attaches the problems among the events. -/
def attachAll (category : String) (r : Report) : List Event → EStateM Failure σ Report
  | [] => pure r
  | .problem p :: rest => do
    let d := Diagnostic.ofProblem p
    -- Two problems at one place with one message look the same to a user.
    if d ∈ r.diagnostics then attachAll category r rest
    else attachAll category (← attach category d r) rest
  | .finished :: _ => pure r
  | .aborted _ :: _ => pure { r with isAborted := true }
  | .unreadable cause :: _ => throw (.input cause)
  | _ :: rest => attachAll category r rest

/-- Runs a validation cycle for a category of markers. -/
def validateEvents (category : String) (events : List Event) : EStateM Failure σ Report := do
  (MarkerStore.clear category).adaptExcept .markers
  attachAll category .empty events

end TidyTrig
