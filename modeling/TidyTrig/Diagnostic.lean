import TidyTrig.Event

/-!
# Diagnostics

What an editor shows of a problem: how bad it is, the message, and a place that exists in any
document, whatever place was reported.
-/

namespace TidyTrig

/-- Errors make a document malformed, warnings do not. -/
inductive Severity where
  | warning
  | error
deriving DecidableEq

def Severity.text : Severity → String
  | .warning => "warning"
  | .error => "error"

def Problem.Kind.severity : Problem.Kind → Severity
  | .warning => .warning
  | .error | .fatal => .error

/-- Lines count from one, columns from zero; without a column the whole line is meant. -/
structure Diagnostic where
  severity : Severity
  message : String
  line : Nat
  column : Option Nat
deriving DecidableEq

namespace Diagnostic

/-- The diagnostic for a problem. A line before the first becomes the first, a column before the
first becomes the first, and an unknown column none. -/
def ofProblem (p : Problem) : Diagnostic where
  severity := p.kind.severity
  message := p.message
  line := (max p.line 1).toNat
  column := if p.column = Problem.unknownColumn then none else some p.column.toNat

/-- The columns from the first to the one after the last that the diagnostic marks. -/
def range? (d : Diagnostic) : Option (Nat × Nat) := d.column.map fun column => (column, column + 1)

def text (d : Diagnostic) : String :=
  let place := match d.column with
    | some column => s!"{d.line}:{column}"
    | none => s!"{d.line}"
  place ++ ": " ++ d.severity.text ++ ": " ++ d.message

end Diagnostic
end TidyTrig
