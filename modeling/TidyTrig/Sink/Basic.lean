import TidyTrig.Failure
import TidyTrig.Text.Utf8

/-!
# Sinks and devices

A sink receives a start signal, declarations and statements, and an end signal, and writes what it
is given in the order given. An operation that fails leaves the sink in the state that it had
reached by then.

A device is what a sink may write to. It keeps the bytes written to it as long as they fit. A write
that does not fit is cut where the device is full, and fails.
-/

namespace TidyTrig

/-- Something that statements are written to; `σ` is its state. -/
class StatementSink (σ : Type) where
  start : EStateM SinkError σ Unit
  declare : Namespace → EStateM SinkError σ Unit
  add : Statement → EStateM SinkError σ Unit
  finish : EStateM SinkError σ Unit

structure Device where
  /-- What was written and kept, the latest byte first. -/
  kept : Bytes
  /-- How many more bytes fit, if there is a limit. -/
  room : Option Nat
  /-- Whether the device fails to confirm that all was kept. -/
  failsToFlush : Bool
deriving DecidableEq

namespace Device

/-- An empty device without limits. -/
def unlimited : Device := ⟨[], none, false⟩

/-- What the device holds. -/
def contents (d : Device) : Bytes := d.kept.reverse

/-- Writes bytes, and tells whether all of them were kept. -/
def write (d : Device) (bytes : Bytes) : Device × Bool :=
  match d.room with
  | none => ({ d with kept := bytes.reverse ++ d.kept }, true)
  | some room =>
    let fitting := bytes.take room
    ({ d with kept := fitting.reverse ++ d.kept, room := some (room - fitting.length) },
      bytes.length ≤ room)

end Device
end TidyTrig
