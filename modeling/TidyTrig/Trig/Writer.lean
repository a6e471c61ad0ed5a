import TidyTrig.Sink.Basic
import TidyTrig.Trig.Spelling

/-!
# Writing a document

A `Writer` is a sink that writes a document to a device, statement by statement in the order
received. Statements of the default graph stand at top level and those of a named graph in a
block. A statement with the subject of the one before is joined to it by a semicolon, one with its
subject and predicate by a comma.

What is open is taken as closed before the closing text is written: a writer whose device failed
there does not write it again.
-/

namespace TidyTrig.Trig

/-- How a document is laid out. -/
structure Layout where
  /-- One level of indentation. -/
  indent : String
  /-- Whether the predicate for the class of a resource is written as a keyword. -/
  usesKeyword : Bool
deriving DecidableEq

structure Writer where
  device : Device
  layout : Layout
  /-- The declarations in force, in the order of their first declaration. -/
  spaces : List Namespace
  /-- The graph of the latest statement, `some none` for the default graph. -/
  graph : Option (Option Term)
  /-- The subject and the predicate that a next statement could be joined to. -/
  subject : Option Term
  predicate : Option Term
  hasWritten : Bool
deriving DecidableEq

/-- Declares a prefix name, in place of an earlier declaration of it. -/
def bind (space : Namespace) : List Namespace → List Namespace
  | [] => [space]
  | s :: rest => if s.name = space.name then space :: rest else s :: bind space rest

namespace Writer

def start (device : Device) (layout : Layout) : Writer where
  device
  layout
  spaces := []
  graph := none
  subject := none
  predicate := none
  hasWritten := false

abbrev Writing := EStateM SinkError Writer

/-- Writes text to the device. -/
def put (text : String) : Writing Unit := fun w =>
  let (device, isKept) := w.device.write (Utf8.encode text)
  let w := { w with device }
  if isKept then .ok () w else .error (.output "disk full") w

/-- Ends the open statement. -/
def closeStatement : Writing Unit := do
  if (← get).subject.isSome then
    modify fun w => { w with subject := none }
    put " .\n"
  modify fun w => { w with predicate := none }

/-- Ends the open statement and the open block. -/
def closeGraph : Writing Unit := do
  closeStatement
  let graph := (← get).graph
  modify fun w => { w with graph := none }
  if graph.any Option.isSome then put "\x7d\n"

/-- Starts a block, or the statements of the default graph. -/
def openGraph (graph : Option Term) : Writing Unit := do
  closeGraph
  let w ← get
  if w.hasWritten then put "\n"
  match graph with
  | some name => put (spellTerm w.spaces name ++ " \x7b\n")
  | none => pure ()
  modify fun w => { w with graph := some graph, hasWritten := true }

/-- Writes a declaration, which ends what is open. -/
def declare (space : Namespace) : Writing Unit := do
  if (← get).graph.isSome then
    closeGraph
    put "\n"
  put ("@prefix " ++ space.name ++ ": <" ++ space.iri ++ "> .\n")
  modify fun w => { w with spaces := bind space w.spaces, hasWritten := true }

/-- Writes a statement that can be written into the open graph. -/
def addToGraph (s : Statement) : Writing Unit := do
  let w ← get
  let base := if s.graph.isSome then w.layout.indent else ""
  let object := spellTerm w.spaces s.object
  let predicate := spellPredicate w.spaces w.layout.usesKeyword s.predicate
  if w.subject = some s.subject then
    if w.predicate = some s.predicate then put (" , " ++ object)
    else put (" ;\n" ++ base ++ w.layout.indent ++ predicate ++ " " ++ object)
  else
    -- An empty line stands between the paragraphs of two subjects.
    if w.subject.isSome then
      closeStatement
      put "\n"
    put (base ++ spellTerm w.spaces s.subject ++ " " ++ predicate ++ " " ++ object)
  modify fun w => { w with subject := some s.subject, predicate := some s.predicate }

/-- Writes a statement, unless it is one that no document can hold. -/
def add (s : Statement) : Writing Unit := do
  match s.misfit? with
  | some cause => throw (.misfit s cause)
  | none =>
    if (← get).graph ≠ some s.graph then openGraph s.graph
    addToGraph s

/-- Ends the document. -/
def finish : Writing Unit := do
  closeGraph
  if (← get).device.failsToFlush then throw (.output "flush failed")

instance : StatementSink Writer where
  start := pure ()
  declare := declare
  add := add
  finish := finish

end Writer
end TidyTrig.Trig
