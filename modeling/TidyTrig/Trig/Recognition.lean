import TidyTrig.Event
import TidyTrig.Iri.Reading
import TidyTrig.Text.Basic
import TidyTrig.Trig.Token

/-!
# Recognising statements

A `Recognition` is what is known of a document after some of its tokens: what is expected next, as
a stack of goals, the subjects, predicates and objects that are still open, the graph, and the
declarations in force. `accept` takes one more token. Each goal either uses the token up or leaves
it to the goal below, so `accept` recurses on the stack.

A syntax error abandons all goals; tokens are then ignored up to the end of a statement or block,
where recognition starts afresh.

Anonymous nodes get their labels from a supply: the `n`-th one drawn is `labels n`.
-/

namespace TidyTrig.Trig

def rdfFirst : String := "http://www.w3.org/1999/02/22-rdf-syntax-ns#first"

def rdfRest : String := "http://www.w3.org/1999/02/22-rdf-syntax-ns#rest"

/-- The empty collection. -/
def rdfNil : Term := .iri "http://www.w3.org/1999/02/22-rdf-syntax-ns#nil"

/-- The datatypes of literals that are written without quotes. -/
def xsd (name : String) : String := "http://www.w3.org/2001/XMLSchema#" ++ name

/-! ## Faults -/

/-- Why a token cannot stand where it does, or what is wrong with what it stands for. -/
inductive SyntaxFault where
  | dotExpected
  | blockEndExpected
  | bracketExpected
  | baseWithoutIri
  | declarationWithoutName
  | declarationWithoutIri
  | notSubjectOrGraph
  | notSubject
  | notGraphName
  | graphNameWithProperties
  | graphWithoutBlock
  | notPredicate
  | notObject
  | notDatatype
  | undeclaredName (space : String)
  | invalidName (space localPart iri : String) (error : IriError)
  | openLiteral
  | unexpectedEnd
deriving DecidableEq

namespace SyntaxFault

/-- The wording, in which `TOKEN` stands for the token at fault. -/
def template : SyntaxFault → String
  | .dotExpected => "A dot is expected at the end of statements"
  | .blockEndExpected => "A '\x7d' or a '.' is expected at the end of a graph block"
  | .bracketExpected => "blank node property lists should end with a ']'"
  | .baseWithoutIri => "The BASE keyword should be followed by an IRI"
  | .declarationWithoutName => "The PREFIX keyword should be followed by a prefix like 'ex:'"
  | .declarationWithoutIri =>
    "The PREFIX declaration should be followed by a prefix and its value as an IRI"
  | .notSubjectOrGraph => "TOKEN is not a valid subject or graph name"
  | .notSubject => "TOKEN is not a valid RDF subject"
  | .notGraphName => "TOKEN is not a valid graph name"
  | .graphNameWithProperties =>
    "Anonymous blank node with a property list are not allowed as graph name"
  | .graphWithoutBlock =>
    "The GRAPH keyword should be followed by a graph name and a value in '\x7b'"
  | .notPredicate => "TOKEN is not a valid predicate"
  | .notObject => "TOKEN is not a valid RDF object"
  | .notDatatype => "Expecting a datatype IRI after ^^, found TOKEN"
  | .undeclaredName space => "The prefix " ++ space ++ ": has not been declared"
  | .invalidName space localPart iri error =>
    "The prefixed name " ++ space ++ ":" ++ localPart ++ " builds IRI " ++ iri
      ++ " that is invalid: " ++ error.message
  | .openLiteral => "Triples should be followed by a dot"
  | .unexpectedEnd => "Unexpected end"

/-- The message about the token `token`. Names of the document are part of the wording, so one
that holds the word `TOKEN` has it replaced too. -/
def message (fault : SyntaxFault) (token : String) : String :=
  .ofList (replaceWord "TOKEN".toList token.toList fault.template.toList)

end SyntaxFault

/-! ## Goals -/

/-- What is expected next. -/
inductive Goal where
  | document
  | dot
  | baseIri
  | declaredName
  | declaredIri (space : String)
  | subjectOrGraph
  /-- After a resource that may name a graph or be a subject. -/
  | blockOrPredicates (resource : Term)
  /-- After an opening bracket at the start of a statement. -/
  | leadingBracket
  /-- The end of a bracketed subject with properties. -/
  | subjectBracketEnd
  /-- After a bracketed subject with properties, where predicates may follow. -/
  | optionalPredicates
  | subjectCollection
  | collectionEnd
  | block
  | blockEnd
  | blockStatement
  /-- After an opening bracket at the start of a statement in a block. -/
  | blockBracket
  | graphName
  | graphBracketEnd
  | predicates
  | predicatesEnd
  | morePredicates
  | verb
  | objects
  | objectsEnd
  | object
  | objectBracket
  | objectBracketEnd
  | objectCollection
  /-- After the quotes of a literal. -/
  | literalTag (value : String)
  | literalDatatype (value : String)
deriving DecidableEq

/-! ## Recognition -/

structure Recognition where
  /-- What is expected, the next first. -/
  goals : List Goal
  subjects : List Term
  predicates : List String
  objects : List Term
  graph : Option Term
  /-- Declared prefix names, the latest declaration first. -/
  spaces : List (String × Iri)
  base : Option Iri
  /-- How many labels were drawn. -/
  drawn : Nat
  /-- Faults that the last token brought up, the latest first. -/
  faults : List SyntaxFault
  /-- Statements that the last token completed, the latest first. -/
  statements : List Statement
deriving DecidableEq

namespace Recognition

def start (base : Option Iri) : Recognition where
  goals := [.document]
  subjects := []
  predicates := []
  objects := []
  graph := none
  spaces := []
  base
  drawn := 0
  faults := []
  statements := []

/-- Gives up all that was open. -/
def abandon (r : Recognition) : Recognition :=
  { r with goals := [], subjects := [], predicates := [], objects := [], graph := none }

/-- Reports a fault and goes on. -/
def note (r : Recognition) (fault : SyntaxFault) : Recognition :=
  { r with faults := fault :: r.faults }

/-- Reports a fault and gives up all that was open. -/
def fail (r : Recognition) (fault : SyntaxFault) : Recognition := (r.note fault).abandon

def expect (r : Recognition) (goals : List Goal) : Recognition := { r with goals }

def pushSubject (r : Recognition) (t : Term) : Recognition :=
  { r with subjects := t :: r.subjects }

def popSubject (r : Recognition) : Recognition := { r with subjects := r.subjects.tail }

def pushPredicate (r : Recognition) (iri : String) : Recognition :=
  { r with predicates := iri :: r.predicates }

def popPredicate (r : Recognition) : Recognition := { r with predicates := r.predicates.tail }

def pushObject (r : Recognition) (t : Term) : Recognition := { r with objects := t :: r.objects }

def popObject (r : Recognition) : Recognition := { r with objects := r.objects.tail }

/-- Completes the statement with this object for the open subject and predicate. -/
def emit (r : Recognition) (object : Term) : Recognition :=
  let r := r.pushObject object
  match r.subjects, r.predicates with
  | subject :: _, predicate :: _ =>
    { r with statements := ⟨r.graph, subject, .iri predicate, object⟩ :: r.statements }
  | _, _ => r

/-- Completes a link of a collection. -/
def emitRest (r : Recognition) (node : Option Term) (rest : Term) : Recognition :=
  match node with
  | some node => { r with statements := ⟨r.graph, node, .iri rdfRest, rest⟩ :: r.statements }
  | none => r

/-- The next anonymous node. -/
def fresh (labels : Nat → String) (r : Recognition) : Term := .blank (labels r.drawn)

/-- Counts the label that `fresh` gave out. -/
def draw (r : Recognition) : Recognition := { r with drawn := r.drawn + 1 }

/-- The namespace that a prefix name stands for. -/
def space? (r : Recognition) (name : String) : Option Iri := r.spaces.lookup name

def declare (r : Recognition) (name : String) (iri : Iri) : Recognition :=
  { r with spaces := (name, iri) :: r.spaces }

/-! ## What a token stands for -/

/-- The IRI of a prefixed name. It is read again where the name could make it none. -/
def expand (r : Recognition) (name localPart : String) (isDoubtful : Bool) :
    Except SyntaxFault String :=
  match r.space? name with
  | none => .error (.undeclaredName name)
  | some space =>
    let iri := space.text ++ localPart
    if isDoubtful || space.path.isEmpty then
      match Iri.parse iri with
      | .ok _ => .ok iri
      | .error e => .error (.invalidName name localPart iri e)
    else .ok iri

/-- The IRI that a token stands for, if it is of the kind that stands for one. -/
def iri? (r : Recognition) : Token → Option (Except SyntaxFault String)
  | .iri iri => some (.ok iri.text)
  | .name space localPart isDoubtful => some (r.expand space localPart isDoubtful)
  | _ => none

/-- The resource that a token stands for, if it is of the kind that stands for one. -/
def resource? (r : Recognition) (t : Token) : Option (Except SyntaxFault Term) :=
  match t with
  | .blank label => some (.ok (.blank label))
  | t => (r.iri? t).map (·.map .iri)

/-- Literals that are written without quotes. -/
def plainLiteral? : Token → Option Literal
  | .integer text => some (.ofDatatype text (xsd "integer"))
  | .decimal text => some (.ofDatatype text (xsd "decimal"))
  | .double text => some (.ofDatatype text (xsd "double"))
  | .keyword word =>
    if word = "true" || word = "false" then some (.ofDatatype word (xsd "boolean")) else none
  | _ => none

/-! ## Goals that always use the token up -/

/-- A predicate, and then the goals `below`. -/
def acceptVerb (t : Token) (below : List Goal) (r : Recognition) : Recognition :=
  match t with
  | .keyword "a" => (r.pushPredicate rdfType).expect below
  | t =>
    match r.iri? t with
    | some (.ok iri) => (r.pushPredicate iri).expect below
    | some (.error fault) => r.fail fault
    | none => r.fail .notPredicate

/-- The first of some predicates with their objects. -/
def acceptPredicates (t : Token) (below : List Goal) (r : Recognition) : Recognition :=
  r.acceptVerb t (.objects :: .predicatesEnd :: below)

/-- An object, or the start of one. -/
def acceptObject (t : Token) (below : List Goal) (r : Recognition) : Recognition :=
  match r.resource? t with
  | some (.ok resource) => (r.emit resource).expect below
  | some (.error fault) => r.fail fault
  | none =>
    match t with
    | .mark .openBracket => r.expect (.objectBracket :: below)
    | .mark .openParen => r.expect (.objectCollection :: below)
    | .string value => r.expect (.literalTag value :: below)
    | t =>
      match plainLiteral? t with
      | some literal => (r.emit (.literal literal)).expect below
      | none => r.fail .notObject

/-- The first item of a collection that starts at the node `node`. -/
def acceptItem (t : Token) (node : Term) (below : List Goal) (r : Recognition) : Recognition :=
  ((r.pushSubject node).pushPredicate rdfFirst).acceptObject t (.collectionEnd :: below)

/-- After an item of a collection: its end, or another item. -/
def acceptCollectionEnd (labels : Nat → String) (t : Token) (below : List Goal)
    (r : Recognition) : Recognition :=
  -- The item is complete; its node is still the subject, and is linked to what follows.
  let node := r.subjects.head?
  let r := r.popSubject.popObject
  if t = .mark .closeParen then (r.popPredicate.emitRest node rdfNil).expect below
  else
    let next := r.fresh labels
    ((r.draw.emitRest node next).pushSubject next).acceptObject t (.collectionEnd :: below)

/-- The start of a statement outside of blocks, or the name of a block. -/
def acceptSubjectOrGraph (t : Token) (below : List Goal) (r : Recognition) : Recognition :=
  match r.resource? t with
  | some (.ok resource) => r.expect (.blockOrPredicates resource :: below)
  | some (.error fault) => r.fail fault
  | none =>
    match t with
    | .mark .openBracket => r.expect (.leadingBracket :: below)
    | .mark .openParen => r.expect (.subjectCollection :: .predicates :: .dot :: below)
    | _ => r.fail .notSubjectOrGraph

/-- A directive, a block or a statement. -/
def acceptDocument (t : Token) (r : Recognition) : Recognition :=
  let r := { r with graph := none }
  let below := [.document]
  -- A directive that starts with `@` ends with a dot, one that starts with a keyword does not.
  match t with
  | .mark .openBrace => r.expect (.blockStatement :: .blockEnd :: below)
  | .language "prefix" => r.expect (.declaredName :: .dot :: below)
  | .language "base" => r.expect (.baseIri :: .dot :: below)
  | .keyword word =>
    if lowercase word = "base" then r.expect (.baseIri :: below)
    else if lowercase word = "prefix" then r.expect (.declaredName :: below)
    else if lowercase word = "graph" then r.expect (.graphName :: .block :: below)
    else r.acceptSubjectOrGraph t below
  | t => r.acceptSubjectOrGraph t below

/-! ## Taking a token -/

/-- With nothing expected, a token that ends a statement or a block starts recognition afresh. -/
def recover (t : Token) (r : Recognition) : Recognition :=
  if t = .mark .dot || t = .mark .closeBrace then r.expect [.document] else r.expect []

/-- Takes a token with these goals. -/
def acceptWith (labels : Nat → String) (t : Token) : List Goal → Recognition → Recognition
  | [], r => r.recover t
  | goal :: below, r =>
    match goal with
    | .document => r.acceptDocument t
    | .dot =>
      let r := r.popSubject
      if t = .mark .dot then r.expect below
      else acceptWith labels t below (r.note .dotExpected)
    | .baseIri =>
      match t with
      | .iri iri => { r with base := some iri }.expect below
      | _ => r.fail .baseWithoutIri
    | .declaredName =>
      match t with
      | .name space "" _ => r.expect (.declaredIri space :: below)
      | _ => r.fail .declarationWithoutName
    | .declaredIri space =>
      match t with
      | .iri iri => (r.declare space iri).expect below
      | _ => r.fail .declarationWithoutIri
    | .subjectOrGraph => r.acceptSubjectOrGraph t below
    | .blockOrPredicates resource =>
      if t = .mark .openBrace then
        { r with graph := some resource }.expect (.blockStatement :: .blockEnd :: below)
      else (r.pushSubject resource).acceptPredicates t (.dot :: below)
    | .leadingBracket =>
      let node := r.fresh labels
      if t = .mark .closeBracket then r.draw.expect (.blockOrPredicates node :: below)
      else (r.draw.pushSubject node).acceptPredicates t (.subjectBracketEnd :: .dot :: below)
    | .subjectBracketEnd =>
      if t = .mark .closeBracket then r.expect (.optionalPredicates :: below)
      else
        let r := r.note .bracketExpected
        if t = .mark .dot || t = .mark .closeBrace then acceptWith labels t below r
        else r.acceptPredicates t below
    | .optionalPredicates =>
      if t = .mark .dot || t = .mark .closeBrace then acceptWith labels t below r
      else r.acceptPredicates t below
    | .subjectCollection =>
      if t = .mark .closeParen then (r.pushSubject rdfNil).expect below
      else
        let node := r.fresh labels
        (r.draw.pushSubject node).acceptItem t node below
    | .collectionEnd => r.acceptCollectionEnd labels t below
    | .block =>
      if t = .mark .openBrace then r.expect (.blockStatement :: .blockEnd :: below)
      else r.fail .graphWithoutBlock
    | .blockEnd =>
      let r := r.popSubject
      if t = .mark .closeBrace then r.expect below
      else if t = .mark .dot then r.expect (.blockStatement :: .blockEnd :: below)
      else acceptWith labels t below (r.note .blockEndExpected)
    | .blockStatement =>
      match r.resource? t with
      | some (.ok resource) => (r.pushSubject resource).expect (.predicates :: below)
      | some (.error fault) => r.fail fault
      | none =>
        match t with
        | .mark .closeBrace => acceptWith labels t below r
        | .mark .openBracket =>
          (r.draw.pushSubject (r.fresh labels)).expect (.blockBracket :: below)
        | .mark .openParen => r.expect (.subjectCollection :: .predicates :: below)
        | _ => r.fail .notSubject
    | .blockBracket =>
      if t = .mark .closeBracket then r.expect (.predicates :: below)
      else r.acceptPredicates t (.subjectBracketEnd :: below)
    | .graphName =>
      match r.resource? t with
      | some (.ok resource) => { r with graph := some resource }.expect below
      | some (.error fault) => r.fail fault
      | none =>
        match t with
        | .mark .openBracket => r.expect (.graphBracketEnd :: below)
        | _ => r.fail .notGraphName
    | .graphBracketEnd =>
      if t = .mark .closeBracket then
        { r.draw with graph := some (r.fresh labels) }.expect below
      else r.fail .graphNameWithProperties
    | .predicates => r.acceptPredicates t below
    | .predicatesEnd =>
      let r := r.popPredicate
      if t = .mark .semicolon then r.expect (.morePredicates :: below)
      else acceptWith labels t below r
    | .morePredicates =>
      if t = .mark .semicolon then r.expect (.morePredicates :: below)
      else if t = .mark .dot || t = .mark .closeBrace || t = .mark .closeBracket then
        acceptWith labels t below r
      else r.acceptPredicates t below
    | .verb => r.acceptVerb t below
    | .objects => r.acceptObject t (.objectsEnd :: below)
    | .objectsEnd =>
      let r := r.popObject
      if t = .mark .comma then r.expect (.object :: .objectsEnd :: below)
      else acceptWith labels t below r
    | .object => r.acceptObject t below
    | .objectBracket =>
      let node := r.fresh labels
      if t = .mark .closeBracket then (r.draw.emit node).expect below
      else (r.draw.pushSubject node).acceptPredicates t (.objectBracketEnd :: below)
    | .objectBracketEnd =>
      if t = .mark .closeBracket then
        match r.subjects.head? with
        | some node => (r.popSubject.emit node).expect below
        | none => r.expect below
      else r.fail .bracketExpected
    | .objectCollection =>
      if t = .mark .closeParen then (r.emit rdfNil).expect below
      else
        let node := r.fresh labels
        (r.draw.emit node).acceptItem t node below
    | .literalTag value =>
      match t with
      | .language tag => (r.emit (.literal (.tagged value (lowercase tag)))).expect below
      | .mark .caret2 => r.expect (.literalDatatype value :: below)
      | t => acceptWith labels t below (r.emit (.literal (.simple value)))
    | .literalDatatype value =>
      match r.iri? t with
      | some (.ok iri) => (r.emit (.literal (.ofDatatype value iri))).expect below
      | some (.error fault) => r.fail fault
      -- The token at fault may be the very one at which recognition starts afresh.
      | none => (r.fail .notDatatype).recover t

/-- Takes a token. -/
def accept (labels : Nat → String) (t : Token) (r : Recognition) : Recognition :=
  acceptWith labels t r.goals r

/-- Takes the end of the document. -/
def close (r : Recognition) : Recognition :=
  match r.goals with
  | [] => r
  | [.document] => r
  | .literalTag value :: _ => (r.emit (.literal (.simple value))).note .openLiteral
  | _ => r.note .unexpectedEnd

/-- Forgets what was reported and completed. -/
def cleared (r : Recognition) : Recognition := { r with faults := [], statements := [] }

end Recognition
end TidyTrig.Trig
