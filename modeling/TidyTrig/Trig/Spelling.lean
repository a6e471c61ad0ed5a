import TidyTrig.Rdf.Term
import TidyTrig.Text.Basic

/-!
# Spelling terms

How terms are written in a document under some prefix declarations: IRIs by the longest namespace
that leaves a plain name, literals in double quotes with escapes.
-/

namespace TidyTrig.Trig

/-- Unicode's control characters, in the two ranges that it has for them. -/
def isControl (c : Char) : Bool := c.toNat < 0x20 || (0x7F ≤ c.toNat && c.toNat ≤ 0x9F)

/-- A character of a string between double quotes. -/
def escaped (c : Char) : List Char :=
  if c = '\\' then ['\\', '\\']
  else if c = '\x22' then ['\\', '\x22']
  else if c = '\n' then ['\\', 'n']
  else if c = '\r' then ['\\', 'r']
  else if c = '\t' then ['\\', 't']
  else if isControl c then '\\' :: 'u' :: Hex.pad 4 (Hex.upper c.toNat)
  else [c]

/-- A string in double quotes. -/
def quoted (text : String) : String :=
  .ofList ('\x22' :: text.toList.flatMap escaped ++ ['\x22'])

def isPlainNameChar (c : Char) : Bool := c.isAlphanum || c = '_' || c = '-'

/-- A local name that can follow a prefix without escapes. -/
def isPlainName : List Char → Bool
  | [] => true
  | first :: rest => (first.isAlphanum || first = '_') && rest.all isPlainNameChar

/-- The ways to write an IRI with a prefix, by the namespace and the local name. -/
def abbreviations (spaces : List Namespace) (iri : String) : List (Namespace × List Char) :=
  spaces.filterMap fun space =>
    match space.iri.toList.isPrefixOf? iri.toList with
    | some name => if isPlainName name then some (space, name) else none
    | none => none

/-- The one with the longest namespace; of two with the same, the later. -/
def longest : List (Namespace × List Char) → Option (Namespace × List Char)
  | [] => none
  | a :: rest =>
    match longest rest with
    | some b => if b.1.iri.length < a.1.iri.length then some a else some b
    | none => some a

/-- An IRI in a document with these declarations in force. -/
def spellIri (spaces : List Namespace) (iri : String) : String :=
  match longest (abbreviations spaces iri) with
  | some (space, name) => space.name ++ ":" ++ String.ofList name
  | none => "<" ++ iri ++ ">"

def spellLiteral (spaces : List Namespace) : Literal → String
  | .simple lexical => quoted lexical
  | .tagged lexical language => quoted lexical ++ "@" ++ language
  | .typed lexical datatype _ => quoted lexical ++ "^^" ++ spellIri spaces datatype

/-- A subject, an object or the name of a graph. -/
def spellTerm (spaces : List Namespace) : Term → String
  | .iri text => spellIri spaces text
  | .blank label => "_:" ++ label
  | .literal value => spellLiteral spaces value

/-- A predicate, for one of which there is a keyword. -/
def spellPredicate (spaces : List Namespace) (usesKeyword : Bool) (predicate : Term) : String :=
  if usesKeyword && predicate = .iri rdfType then "a" else spellTerm spaces predicate

end TidyTrig.Trig
