import TidyTrig.Event
import TidyTrig.Rdf.Order
import TidyTrig.Sink.Basic

/-!
# Canonical form

`canonicalize` brings the events of a document into a sink: declarations as they come, and when
all events are there, the statements in canonical order. The first error, or a reader that gives
up, shows the document to be malformed: the sink is then left as it is.
-/

namespace TidyTrig

variable {σ : Type} [StatementSink σ]

/-- A step of the sink as a step of a run. -/
def throughSink (step : EStateM SinkError σ Unit) : EStateM Failure σ Unit :=
  step.adaptExcept .sink

/-- Passes declarations on and collects statements, the latest first. The answer is `none` for a
malformed document. -/
def forward (buffer : List Statement) : List Event → EStateM Failure σ (Option (List Statement))
  | [] => pure (some buffer)
  | .declaration space :: rest => do
    throughSink (StatementSink.declare space)
    forward buffer rest
  | .statement s :: rest => forward (s :: buffer) rest
  | .problem p :: rest => if p.isError then pure none else forward buffer rest
  | .finished :: _ => pure (some buffer)
  | .aborted _ :: _ => pure none
  | .unreadable cause :: _ => throw (.input cause)

/-- Adds statements one after the other. -/
def addAll : List Statement → EStateM Failure σ Unit
  | [] => pure ()
  | s :: rest => do
    throughSink (StatementSink.add s)
    addAll rest

/-- Writes the document of these events in canonical form. The answer tells whether it was
written, or is malformed. -/
def canonicalize (events : List Event) : EStateM Failure σ Bool := do
  throughSink StatementSink.start
  match ← forward [] events with
  | none => pure false
  -- Until here the sink has seen declarations alone.
  | some buffer =>
    addAll (Statement.sort buffer.reverse)
    throughSink StatementSink.finish
    pure true

end TidyTrig
