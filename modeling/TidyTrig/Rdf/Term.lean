/-!
# RDF terms and statements

The values that a document is about, independent of how it spells them. A literal has a language
tag or a datatype but never both, and one typed as a plain string is the same value as one
without a type, so the type `Literal` has no way to say it twice.

Each term has a canonical form, the text by which the canonical order compares it.
-/

namespace TidyTrig

/-- The datatype of a literal that names none. -/
def xsdString : String := "http://www.w3.org/2001/XMLSchema#string"

/-- The predicate that states the class of a resource. -/
def rdfType : String := "http://www.w3.org/1999/02/22-rdf-syntax-ns#type"

/-- A literal value: a lexical form, and a language tag or a datatype if it has one. -/
inductive Literal where
  | simple (lexical : String)
  | tagged (lexical language : String)
  | typed (lexical datatype : String) (proper : datatype ≠ xsdString)
deriving DecidableEq

namespace Literal

/-- The literal of a datatype, which is a simple one for the datatype of plain strings. -/
def ofDatatype (lexical datatype : String) : Literal :=
  if h : datatype = xsdString then .simple lexical else .typed lexical datatype h

def lexical : Literal → String
  | .simple lexical => lexical
  | .tagged lexical _ => lexical
  | .typed lexical _ _ => lexical

def language? : Literal → Option String
  | .tagged _ language => some language
  | _ => none

def datatype? : Literal → Option String
  | .typed _ datatype _ => some datatype
  | _ => none

/-- The lexical form in quotes as it is, followed by the tag or the datatype. -/
def text : Literal → String
  | .simple lexical => "\"" ++ lexical ++ "\""
  | .tagged lexical language => "\"" ++ lexical ++ "\"@" ++ language
  | .typed lexical datatype _ => "\"" ++ lexical ++ "\"^^<" ++ datatype ++ ">"

end Literal

/-- An RDF term: an absolute IRI, a node known only by its label in the document, or a literal. -/
inductive Term where
  | iri (text : String)
  | blank (label : String)
  | literal (value : Literal)
deriving DecidableEq

namespace Term

/-- The text by which the canonical order compares terms. -/
def canonical : Term → String
  | .iri text => text
  | .blank label => "_:" ++ label
  | .literal value => value.text

def iri? : Term → Option String
  | .iri text => some text
  | _ => none

/-- Resources are what may be described: IRIs and blank nodes. -/
def isResource : Term → Bool
  | .literal _ => false
  | _ => true

/-- The IRI that a term mentions: its own or that of its datatype. -/
def mentioned? : Term → Option String
  | .iri text => some text
  | .blank _ => none
  | .literal value => value.datatype?

end Term

/-- One statement, in the named graph `graph` or in the default graph. -/
structure Statement where
  graph : Option Term
  subject : Term
  predicate : Term
  object : Term
deriving DecidableEq

namespace Statement

/-- The terms of a statement, the graph name first. -/
def terms (s : Statement) : List Term := s.graph.toList ++ [s.subject, s.predicate, s.object]

/-- Every IRI that a statement mentions, with those of datatypes. -/
def iris (s : Statement) : List String := s.terms.filterMap Term.mentioned?

/-- A statement on one line, for messages. -/
def text (s : Statement) : String :=
  let graph := match s.graph with
    | some term => " " ++ term.canonical
    | none => ""
  "(" ++ s.subject.canonical ++ " " ++ s.predicate.canonical ++ " " ++ s.object.canonical
    ++ graph ++ ")"

end Statement

/-- A prefix declaration: the name before the colon, which may be empty, and what it stands for. -/
structure Namespace where
  name : String
  iri : String
deriving DecidableEq

end TidyTrig
