import TidyTrig.Failure
import TidyTrig.Trig.Directive
import TidyTrig.Trig.Parser

/-!
# Reading a document

`read` turns a document into its events. The parser resolves prefixes but does not report their
declarations, so the document is given to it directive by directive, and each declaration is
announced when the parser is done with it. After the last statement come what the document as a
whole is faulted for: bytes that are no text, and, if asked for, prefixes that nothing uses.
-/

namespace TidyTrig.Trig

open Utf8 (byte)

structure Options where
  /-- What relative IRIs are resolved against. -/
  baseIri : Option String
  /-- Whether to warn of prefixes that no statement uses. -/
  warnsUnused : Bool
  /-- How many problems to report before giving up. -/
  maxProblems : Option Nat
deriving DecidableEq

/-! ## Positions in the raw text -/

/-- The line of an offset, from one, as counted by line feeds. -/
def lineOf (bytes : Bytes) (offset : Nat) : Nat :=
  (bytes.take offset).count (byte '\n') + 1

/-- The bytes between the last line feed in front of an offset and the offset. -/
def lineFront (bytes : Bytes) (offset : Nat) : Bytes :=
  ((bytes.take offset).reverse.takeWhile (· ≠ byte '\n')).reverse

/-- The column of an offset: characters since the last line feed, and zero if the bytes since then
are no text. -/
def columnOf (bytes : Bytes) (offset : Nat) : Nat :=
  match Utf8.decode? (lineFront bytes offset) with
  | some text => text.length
  | none => 0

/-! ## Declarations -/

/-- Whether an IRI starts with a scheme, so that it depends on no base. -/
def hasScheme (iri : String) : Bool :=
  let chars := iri.toList
  let scheme := chars.takeWhile (· ≠ ':')
  scheme.length < chars.length && scheme.all Iri.isSchemeChar && scheme.head?.any Char.isAlpha

/-- The declaration that a directive makes. A relative IRI is taken from the parser, which has
resolved it. -/
def Directive.announce (d : Directive) (p : Parser) : Namespace :=
  if hasScheme d.iri then ⟨d.name, d.iri⟩
  else
    match p.space? d.name with
    | some iri => ⟨d.name, iri.text⟩
    | none => ⟨d.name, d.iri⟩

/-- Reads on from a state of the parser: `rest` is what it was not given, from the offset `given`
on, and the directives are those in it. -/
def readFrom (labels : Nat → String) (p : Parser) (given : Nat) (rest : Bytes) :
    List Directive → List Event
  | [] =>
    let (events, p) := (p.feed rest).drain labels false
    events ++ p.close labels
  | d :: ds =>
    let n := d.stop - given
    let (events, p) := (p.feed (rest.take n)).drain labels false
    events ++ .declaration (d.announce p) :: readFrom labels p d.stop (rest.drop n) ds

/-! ## The document as a whole -/

/-- The lines with problems. -/
def problemLines (events : List Event) : List Int :=
  events.filterMap fun
    | .problem p => some p.line
    | _ => none

/-- The error that a document is no text, unless its line has an error already. -/
def undecodable (bytes : Bytes) (events : List Event) : List Event :=
  match Utf8.fault? bytes with
  | some fault =>
    let line : Int := lineOf bytes fault.offset
    -- The parser has said so where the bytes are part of a token; comments it does not decode.
    if line ∈ problemLines events then []
    else
      [.problem ⟨.error, "Invalid UTF-8 byte sequence", line, columnOf bytes fault.offset⟩]
  | none => []

/-- The IRIs that the statements mention. -/
def mentioned (events : List Event) : List String :=
  events.flatMap fun
    | .statement s => s.iris
    | _ => []

/-- The declarations with the lines of the directives that made them. -/
def declared (bytes : Bytes) (directives : List Directive) (events : List Event) :
    List (Namespace × Nat) :=
  let spaces := events.filterMap fun
    | .declaration space => some space
    | _ => none
  spaces.zip (directives.map fun d => lineOf bytes d.start)

/-- A warning for each declared namespace that no mentioned IRI starts with. -/
def unused (declared : List (Namespace × Nat)) (iris : List String) : List Event :=
  let iris := iris.map String.toList
  let isUnused := fun (space : Namespace) => !iris.any (space.iri.toList.isPrefixOf ·)
  let unused := declared.filter fun d => isUnused d.1
  (unused.eraseDupsBy fun a b => a.1 = b.1).map fun (space, line) =>
    .problem ⟨.warning, "Unused prefix '" ++ space.name ++ ":'", line, Problem.unknownColumn⟩

/-! ## The limit -/

/-- Gives up before the problem that exceeds the limit. -/
def limitProblems (max : Nat) : Nat → List Event → List Event
  | _, [] => []
  | 0, .problem _ :: _ => [.aborted s!"too many problems (limit {max})"]
  | n + 1, .problem p :: rest => .problem p :: limitProblems max n rest
  | n, event :: rest => event :: limitProblems max n rest

/-! ## All together -/

/-- The events of a document without a limit. -/
def readAll (labels : Nat → String) (base : Option Iri) (warnsUnused : Bool) (bytes : Bytes) :
    List Event :=
  let directives := Directive.scan bytes
  let events := readFrom labels (.start base) 0 bytes directives
  let warnings :=
    if warnsUnused then unused (declared bytes directives events) (mentioned events) else []
  events ++ undecodable bytes events ++ warnings ++ [.finished]

/-- The base IRI of some options, if they have one. -/
def Options.base? (o : Options) : Except Failure (Option Iri) :=
  match o.baseIri with
  | none => .ok none
  | some text =>
    match Iri.parse text with
    | .ok iri => .ok (some iri)
    | .error e => .error (.baseIri text e)

/-- The events of a document. -/
def read (labels : Nat → String) (o : Options) (bytes : Bytes) : Except Failure (List Event) :=
  o.base?.map fun base =>
    let events := readAll labels base o.warnsUnused bytes
    match o.maxProblems with
    | some max => limitProblems max max events
    | none => events

/-- The statements of a document, whatever its problems. -/
def statements (labels : Nat → String) (o : Options) (bytes : Bytes) :
    Except Failure (List Statement) :=
  (read labels o bytes).map fun events => events.filterMap fun
    | .statement s => some s
    | _ => none

end TidyTrig.Trig
