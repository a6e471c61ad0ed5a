import TidyTrig.Iri.Basic
import TidyTrig.Rdf.Term

/-!
# Failures

What can stop formatting or validating a document. Faults of the document itself are no failures:
they travel as problems and end up as diagnostics.
-/

namespace TidyTrig

/-- Why a statement cannot be written. -/
inductive Statement.Misfit where
  | literalSubject
  | predicateNotIri
  | literalGraph
deriving DecidableEq

def Statement.Misfit.message : Statement.Misfit → String
  | .literalSubject => "subject must be an IRI or blank node"
  | .predicateNotIri => "predicate must be an IRI"
  | .literalGraph => "graph name must be an IRI or blank node"

/-- The first reason why a statement cannot be written, if there is one. -/
def Statement.misfit? (s : Statement) : Option Statement.Misfit :=
  if !s.subject.isResource then some .literalSubject
  else if s.predicate.iri?.isNone then some .predicateNotIri
  else if s.graph.any (!·.isResource) then some .literalGraph
  else none

/-- Failure of what statements are written to. -/
inductive SinkError where
  | output (cause : String)
  | misfit (statement : Statement) (cause : Statement.Misfit)
deriving DecidableEq

def SinkError.message : SinkError → String
  | .output cause => "failed to write serialized output: " ++ cause
  | .misfit statement cause =>
    "cannot serialize statement " ++ statement.text ++ ": " ++ cause.message

/-- Failure of what markers are kept in. -/
inductive MarkerError where
  | unavailable (cause : String)
  | rejected (cause : String)
deriving DecidableEq

def MarkerError.message : MarkerError → String
  | .unavailable cause => "marker store unavailable: " ++ cause
  | .rejected cause => "marker rejected: " ++ cause

/-- Failure to read or replace the text of a document. -/
inductive DocumentError where
  | access (path cause : String)
  | unavailable (cause : String)
deriving DecidableEq

def DocumentError.message : DocumentError → String
  | .access path cause => "failed to access " ++ path ++ ": " ++ cause
  | .unavailable cause => "document unavailable: " ++ cause

/-- What ends a run of formatting or validating before its end. -/
inductive Failure where
  | input (cause : String)
  | sink (error : SinkError)
  | document (error : DocumentError)
  /-- The former markers could not be cleared. -/
  | markers (error : MarkerError)
  | baseIri (iri : String) (error : IriError)
  | config
deriving DecidableEq

def Failure.message : Failure → String
  | .input cause => "failed to read input: " ++ cause
  | .sink error => error.message
  | .document error => error.message
  | .markers error => "failed to clear previous diagnostics: " ++ error.message
  | .baseIri iri error => "invalid base IRI <" ++ iri ++ ">: " ++ error.message
  | .config => "invalid configuration"

end TidyTrig
