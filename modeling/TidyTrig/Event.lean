import TidyTrig.Rdf.Term

/-!
# Events of reading a document

Reading a document yields a list of events: its prefix declarations and statements in the order
written, the problems found on the way, and how the reading ended. Formatting and validation know
documents by these events alone.
-/

namespace TidyTrig

namespace Problem

/-- How bad a problem is to the reader that reports it. -/
inductive Kind where
  | warning
  | error
  | fatal
deriving DecidableEq

end Problem

/-- A warning or an error as it was reported. Lines count from one, columns from zero, and a column
of minus one is unknown. -/
structure Problem where
  kind : Problem.Kind
  message : String
  line : Int
  column : Int
deriving DecidableEq

/-- The column of a problem that concerns a whole line. -/
def Problem.unknownColumn : Int := -1

/-- Anything but a warning makes a document malformed. -/
def Problem.isError (p : Problem) : Bool := p.kind ≠ .warning

inductive Event where
  | declaration (space : Namespace)
  | statement (statement : Statement)
  | problem (problem : Problem)
  /-- All of the document was read. -/
  | finished
  /-- The reader gave up on the document. -/
  | aborted (message : String)
  /-- The document could not be read on. -/
  | unreadable (message : String)
deriving DecidableEq

end TidyTrig
