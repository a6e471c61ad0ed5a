import TidyTrig.Sink.Basic

/-!
# A sink that takes notes

A recorder notes each call. It can be told to fail at one of them, which it notes before.
-/

namespace TidyTrig

namespace Recorder

/-- A call of a sink. -/
inductive Call where
  | start
  | declare (space : Namespace)
  | add (statement : Statement)
  | finish
deriving DecidableEq

def Call.text : Call → String
  | .start => "start"
  | .declare space => "namespace " ++ space.name ++ " " ++ space.iri
  | .add statement => "statement " ++ statement.text
  | .finish => "end"

end Recorder

structure Recorder where
  /-- The calls so far, the latest first. -/
  calls : List Recorder.Call
  /-- The number of the call that fails, from zero. -/
  failsAt : Option Nat
deriving DecidableEq

namespace Recorder

/-- Notes a call, and fails if it is the one to fail at. -/
def note (call : Call) : EStateM SinkError Recorder Unit := fun r =>
  let noted := { r with calls := call :: r.calls }
  if r.failsAt = some r.calls.length then .error (.output "host storage gone") noted
  else .ok () noted

instance : StatementSink Recorder where
  start := note .start
  declare space := note (.declare space)
  add statement := note (.add statement)
  finish := note .finish

end Recorder
end TidyTrig
