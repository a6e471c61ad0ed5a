import TidyTrig.Proofs.Trig.Feeding

/-!
# Labels that were drawn

The labels of anonymous nodes are drawn, and drawn anew each time a document is read. Nothing else
depends on them. `shape` is what is left of terms, and of all that is made of terms, when labels are
left out; taking a token commutes with it (`Recognition.shape_accept`), and so the events of two
readings of a document have the same shape (`map_shape_readAll`).
-/

namespace TidyTrig

/-! ## Leaving labels out -/

/-- A term without its label. -/
def Term.shape : Term → Term
  | .blank _ => .blank ""
  | t => t

/-- A statement without its labels. -/
def Statement.shape (s : Statement) : Statement :=
  ⟨s.graph.map Term.shape, s.subject.shape, s.predicate.shape, s.object.shape⟩

/-- An event without its labels. -/
def Event.shape : Event → Event
  | .statement s => .statement s.shape
  | e => e

@[simp] theorem Term.shape_iri (text : String) : (Term.iri text).shape = .iri text := rfl
@[simp] theorem Term.shape_blank (label : String) : (Term.blank label).shape = .blank "" := rfl
@[simp] theorem Term.shape_literal (value : Literal) : (Term.literal value).shape = .literal value :=
  rfl

/-- Whether a statement can be written does not depend on its labels. -/
theorem Statement.misfit?_shape (s : Statement) : s.shape.misfit? = s.misfit? := by
  have hresource : ∀ t : Term, t.shape.isResource = t.isResource := by
    intro t
    cases t <;> rfl
  have hiri : ∀ t : Term, t.shape.iri? = t.iri? := by
    intro t
    cases t <;> rfl
  rw [misfit?, misfit?, shape]
  dsimp only
  rw [hresource, hiri]
  cases s.graph with
  | none => rfl
  | some name =>
    show (if _ then _ else if _ then _ else if (!name.shape.isResource) then _ else _) = _
    rw [hresource]
    rfl

/-- The IRIs of a statement are none of its labels. -/
theorem Statement.iris_shape (s : Statement) : s.shape.iris = s.iris := by
  have hmentioned : Term.mentioned? ∘ Term.shape = Term.mentioned? := by
    funext t
    cases t <;> rfl
  have hterms : s.shape.terms = s.terms.map Term.shape := by
    cases h : s.graph <;> simp [terms, shape, h]
  rw [iris, hterms, List.filterMap_map, hmentioned, iris]

namespace Trig

/-- A token without its label. -/
def Token.shape : Token → Token
  | .blank _ => .blank ""
  | t => t

/-- A goal without its label. -/
def Goal.shape : Goal → Goal
  | .blockOrPredicates resource => .blockOrPredicates resource.shape
  | goal => goal

namespace Recognition

/-- A recognition without labels. -/
def shape (r : Recognition) : Recognition :=
  { r with
    goals := r.goals.map Goal.shape
    subjects := r.subjects.map Term.shape
    objects := r.objects.map Term.shape
    graph := r.graph.map Term.shape
    statements := r.statements.map Statement.shape }

/-! ## Steps -/

section

variable (r : Recognition)

@[simp] theorem shape_abandon : r.abandon.shape = r.shape.abandon := rfl

@[simp] theorem shape_note (fault : SyntaxFault) : (r.note fault).shape = r.shape.note fault := rfl

@[simp] theorem shape_fail (fault : SyntaxFault) : (r.fail fault).shape = r.shape.fail fault := rfl

@[simp] theorem shape_expect (goals : List Goal) :
    (r.expect goals).shape = r.shape.expect (goals.map Goal.shape) := rfl

@[simp] theorem shape_pushSubject (t : Term) :
    (r.pushSubject t).shape = r.shape.pushSubject t.shape := rfl

@[simp] theorem shape_popSubject : r.popSubject.shape = r.shape.popSubject := by
  rw [popSubject, popSubject, shape, shape, List.map_tail]

@[simp] theorem shape_pushPredicate (iri : String) :
    (r.pushPredicate iri).shape = r.shape.pushPredicate iri := rfl

@[simp] theorem shape_popPredicate : r.popPredicate.shape = r.shape.popPredicate := rfl

@[simp] theorem shape_popObject : r.popObject.shape = r.shape.popObject := by
  rw [popObject, popObject, shape, shape, List.map_tail]

@[simp] theorem shape_draw : r.draw.shape = r.shape.draw := rfl

@[simp] theorem shape_cleared : r.cleared.shape = r.shape.cleared := rfl

@[simp] theorem shape_declare (name : String) (iri : Iri) :
    (r.declare name iri).shape = r.shape.declare name iri := rfl

@[simp] theorem shape_fresh (labels : Nat → String) :
    (r.fresh labels).shape = r.shape.fresh fun _ => "" := rfl

@[simp] theorem shape_emit (object : Term) :
    (r.emit object).shape = r.shape.emit object.shape := by
  obtain ⟨goals, subjects, predicates, objects, graph, spaces, base, drawn, faults, statements⟩ := r
  cases subjects with
  | nil => rfl
  | cons subject subjects =>
    cases predicates with
    | nil => rfl
    | cons predicate predicates => rfl

@[simp] theorem shape_emitRest (node : Option Term) (rest : Term) :
    (r.emitRest node rest).shape = r.shape.emitRest (node.map Term.shape) rest.shape := by
  cases node with
  | none => rfl
  | some node => rfl

/-! ## What a token stands for -/

variable (t : Token)

theorem mark_eq_shape_iff {m : Mark} : t.shape = .mark m ↔ t = .mark m := by
  cases t <;> simp [Token.shape]

@[simp] theorem iri?_shape : r.shape.iri? t.shape = r.iri? t := by
  cases t <;> rfl

@[simp] theorem resource?_shape :
    r.shape.resource? t.shape = (r.resource? t).map (·.map Term.shape) := by
  cases t with
  | blank label => rfl
  | name space localPart isDoubtful =>
    show ((r.expand space localPart isDoubtful).map Term.iri |> some) = _
    show _ = some (((r.expand space localPart isDoubtful).map Term.iri).map Term.shape)
    cases r.expand space localPart isDoubtful <;> rfl
  | _ => rfl

/-! ## Goals that use the token up -/

variable (below : List Goal)

@[simp] theorem shape_acceptVerb :
    (r.acceptVerb t below).shape = r.shape.acceptVerb t.shape (below.map Goal.shape) := by
  cases t with
  | keyword word =>
    by_cases hword : word = "a"
    · subst hword
      rfl
    · simp [acceptVerb, Token.shape, hword, iri?]
  | name space localPart isDoubtful =>
    have hiri := iri?_shape r (.name space localPart isDoubtful)
    unfold acceptVerb
    dsimp only [Token.shape] at hiri ⊢
    rw [hiri]
    split <;> simp
  | _ => rfl

@[simp] theorem shape_acceptPredicates :
    (r.acceptPredicates t below).shape
      = r.shape.acceptPredicates t.shape (below.map Goal.shape) :=
  shape_acceptVerb r t _

@[simp] theorem shape_acceptObject :
    (r.acceptObject t below).shape = r.shape.acceptObject t.shape (below.map Goal.shape) := by
  unfold acceptObject
  rw [resource?_shape]
  cases r.resource? t with
  | some answer =>
    cases answer with
    | ok resource => simp [Except.map]
    | error fault => simp [Except.map]
  | none =>
    cases t with
    | mark m => cases m <;> rfl
    | string value => rfl
    | blank label => rfl
    | _ =>
      simp only [Option.map_none, Token.shape]
      generalize plainLiteral? _ = literal
      cases literal <;> simp

@[simp] theorem shape_acceptItem (node : Term) :
    (r.acceptItem t node below).shape
      = r.shape.acceptItem t.shape node.shape (below.map Goal.shape) := by
  rw [acceptItem, acceptItem, shape_acceptObject]
  rfl

@[simp] theorem shape_acceptCollectionEnd (labels : Nat → String) :
    (r.acceptCollectionEnd labels t below).shape
      = r.shape.acceptCollectionEnd (fun _ => "") t.shape (below.map Goal.shape) := by
  have hnode : r.shape.subjects.head? = r.subjects.head?.map Term.shape := List.head?_map
  unfold acceptCollectionEnd
  simp only [mark_eq_shape_iff, hnode]
  split
  · simp [rdfNil]
  · simp [Goal.shape]

@[simp] theorem shape_acceptSubjectOrGraph :
    (r.acceptSubjectOrGraph t below).shape
      = r.shape.acceptSubjectOrGraph t.shape (below.map Goal.shape) := by
  unfold acceptSubjectOrGraph
  rw [resource?_shape]
  cases r.resource? t with
  | some answer => cases answer <;> rfl
  | none =>
    cases t with
    | mark m => cases m <;> rfl
    | _ => rfl

@[simp] theorem shape_acceptDocument :
    (r.acceptDocument t).shape = r.shape.acceptDocument t.shape := by
  have hother : ∀ t : Token, (({ r with graph := none } : Recognition).acceptSubjectOrGraph t
      [.document]).shape
        = ({ r.shape with graph := none } : Recognition).acceptSubjectOrGraph t.shape [.document] :=
    fun t => shape_acceptSubjectOrGraph _ t [.document]
  cases t with
  | mark m => cases m <;> rfl
  | language tag =>
    by_cases hprefix : tag = "prefix"
    · subst hprefix
      rfl
    · by_cases hbase : tag = "base"
      · subst hbase
        rfl
      · have hplain : ∀ r : Recognition, r.acceptDocument (.language tag)
            = ({ r with graph := none } : Recognition).acceptSubjectOrGraph (.language tag)
              [.document] := by
          intro r
          unfold acceptDocument
          split
          · next heq => cases heq
          · next heq => exact absurd (Token.language.inj heq) hprefix
          · next heq => exact absurd (Token.language.inj heq) hbase
          · next heq => cases heq
          · rfl
        rw [hplain]
        exact (hother (.language tag)).trans (hplain r.shape).symm
  | keyword word =>
    show (if _ then _ else if _ then _ else if _ then _ else _ : Recognition).shape
      = if _ then _ else if _ then _ else if _ then _ else _
    split
    · rfl
    · split
      · rfl
      · split
        · rfl
        · exact hother (.keyword word)
  | _ => exact hother _

@[simp] theorem shape_recover : (r.recover t).shape = r.shape.recover t.shape := by
  unfold recover
  simp only [mark_eq_shape_iff]
  split <;> rfl

/-! ## All goals -/

/-- Labels leave no trace on what becomes of a token. -/
theorem shape_acceptWith (labels : Nat → String) (goals : List Goal) :
    (acceptWith labels t goals r).shape
      = acceptWith (fun _ => "") t.shape (goals.map Goal.shape) r.shape := by
  induction goals generalizing r with
  | nil => exact shape_recover r t
  | cons goal below ih =>
    rw [List.map_cons]
    unfold acceptWith
    cases goal with
    -- These take the token whatever it is.
    | document => exact shape_acceptDocument r t
    | subjectOrGraph => exact shape_acceptSubjectOrGraph r t below
    | predicates => exact shape_acceptPredicates r t below
    | verb => exact shape_acceptVerb r t below
    | objects => exact shape_acceptObject r t (.objectsEnd :: below)
    | object => exact shape_acceptObject r t below
    | collectionEnd => exact shape_acceptCollectionEnd r t below labels
    -- These ask what the token stands for.
    | baseIri => cases t <;> rfl
    | declaredIri space => cases t <;> rfl
    | declaredName =>
      cases t with
      | name space localPart isDoubtful =>
        by_cases hlocal : localPart = ""
        · subst hlocal
          rfl
        · simp [Goal.shape, Token.shape, hlocal]
      | _ => rfl
    | blockStatement =>
      simp only [Goal.shape, resource?_shape]
      cases r.resource? t with
      | some answer => cases answer <;> rfl
      | none =>
        cases t with
        | mark m =>
          cases m with
          | closeBrace => exact ih r
          | _ => rfl
        | _ => rfl
    | graphName =>
      simp only [Goal.shape, resource?_shape]
      cases r.resource? t with
      | some answer => cases answer <;> rfl
      | none =>
        cases t with
        | mark m => cases m <;> rfl
        | _ => rfl
    | literalTag value =>
      cases t with
      | mark m =>
        cases m with
        | caret2 => rfl
        | _ => simp [Goal.shape, Token.shape, ih]
      | _ => simp [Goal.shape, Token.shape, ih]
    | literalDatatype value =>
      simp only [Goal.shape, iri?_shape]
      split <;> simp
    -- These ask whether the token is a certain mark.
    | subjectCollection | objectCollection =>
      simp only [Goal.shape, mark_eq_shape_iff]
      split <;> simp [rdfNil]
    | objectBracketEnd =>
      have hnode : r.shape.subjects.head? = r.subjects.head?.map Term.shape := List.head?_map
      simp only [Goal.shape, mark_eq_shape_iff, hnode]
      split
      · cases r.subjects.head? <;> simp
      · rfl
    | blockOrPredicates resource =>
      simp only [Goal.shape, mark_eq_shape_iff]
      split
      · rfl
      · simp [Goal.shape]
    | graphBracketEnd =>
      simp only [Goal.shape, mark_eq_shape_iff]
      split <;> rfl
    | subjectBracketEnd | blockEnd | morePredicates =>
      simp only [Goal.shape, mark_eq_shape_iff]
      split
      · simp [Goal.shape]
      · split <;> simp [ih, Goal.shape]
    | _ =>
      simp only [Goal.shape, mark_eq_shape_iff]
      split <;> simp [ih, Goal.shape]

theorem shape_accept (labels : Nat → String) :
    (r.accept labels t).shape = r.shape.accept (fun _ => "") t.shape :=
  shape_acceptWith r t labels r.goals

theorem shape_close : r.close.shape = r.shape.close := by
  obtain ⟨goals, subjects, predicates, objects, graph, spaces, base, drawn, faults, statements⟩ := r
  cases goals with
  | nil => rfl
  | cons goal below =>
    cases goal with
    | document => cases below <;> rfl
    | literalTag value =>
      show (((emit _ _).note _).shape) = (emit _ _).note _
      rw [shape_note, shape_emit]
      rfl
    | _ => rfl

end

end Recognition

/-! ## The parser -/

namespace Parser

/-- A parser without labels. -/
def shape (p : Parser) : Parser := { p with recognition := p.recognition.shape }

/-- What a parser yields and where it is then, without labels. -/
def shapes (result : List Event × Parser) : List Event × Parser :=
  (result.1.map Event.shape, result.2.shape)

theorem map_shape_report (cursor : Cursor) (token : Bytes) (r : Recognition) :
    (report cursor token r).map Event.shape = report cursor token r.shape := by
  have hstatements : (r.statements.map Event.statement).map Event.shape
      = (r.statements.map Statement.shape).map Event.statement := by
    rw [List.map_map, List.map_map]
    rfl
  rw [report, report, List.map_append, List.map_map, hstatements]
  rfl

/-- Parsers alike but for labels are at the same place and know the same. -/
theorem eq_of_shape {p q : Parser} (h : p.shape = q.shape) :
    p.unread = q.unread ∧ p.cursor = q.cursor ∧ p.recognition.shape = q.recognition.shape
      ∧ p.recognition.base = q.recognition.base ∧ p.recognition.spaces = q.recognition.spaces :=
  have hr : p.recognition.shape = q.recognition.shape :=
    show p.shape.recognition = q.shape.recognition by rw [h]
  ⟨show p.shape.unread = q.shape.unread by rw [h], show p.shape.cursor = q.shape.cursor by rw [h], hr,
    show p.recognition.shape.base = q.recognition.shape.base by rw [hr],
    show p.recognition.shape.spaces = q.recognition.shape.spaces by rw [hr]⟩

variable (labels labels' : Nat → String)

theorem shapes_readToken {p q : Parser} (h : p.shape = q.shape) (ended : Bool) (b : UInt8)
    (rest : Bytes) :
    (p.readToken labels ended b rest).map shapes = (q.readToken labels' ended b rest).map shapes := by
  obtain ⟨-, hcursor, hr, hbase, -⟩ := eq_of_shape h
  have habandon : p.recognition.abandon.shape = q.recognition.abandon.shape := by
    rw [Recognition.shape_abandon, hr, Recognition.shape_abandon]
  unfold readToken
  rw [hcursor, hbase]
  cases scan q.recognition.base ended b rest with
  | wait =>
    cases ended with
    | false => rfl
    | true =>
      show some (_, Parser.mk _ _ p.recognition.abandon.shape)
        = some (_, Parser.mk _ _ q.recognition.abandon.shape)
      rw [habandon]
  | fault cause offset size =>
    show some (_, Parser.mk _ _ p.recognition.abandon.shape)
      = some (_, Parser.mk _ _ q.recognition.abandon.shape)
    rw [habandon]
  | found t size =>
    have haccept : (p.recognition.accept labels t).shape = (q.recognition.accept labels' t).shape := by
      rw [Recognition.shape_accept, hr, Recognition.shape_accept]
    show some ((report _ _ _).map Event.shape, Parser.mk _ _ (Recognition.cleared _).shape)
      = some ((report _ _ _).map Event.shape, Parser.mk _ _ (Recognition.cleared _).shape)
    rw [map_shape_report, map_shape_report, Recognition.shape_cleared, Recognition.shape_cleared,
      haccept]

theorem shapes_next? {p q : Parser} (h : p.shape = q.shape) (ended : Bool) :
    (p.next? labels ended).map shapes = (q.next? labels' ended).map shapes := by
  obtain ⟨hunread, hcursor, hr, -⟩ := eq_of_shape h
  unfold next?
  rw [hunread, hcursor]
  split
  · next cursor b rest _ =>
    have hmoved : ({ p with cursor } : Parser).shape = ({ q with cursor } : Parser).shape := by
      show Parser.mk _ _ p.recognition.shape = Parser.mk _ _ q.recognition.shape
      rw [hunread, hr]
    exact shapes_readToken labels labels' hmoved ended b rest
  · rfl

/-- Two readings of the same bytes yield the same but for labels. -/
theorem shapes_drain {p q : Parser} (h : p.shape = q.shape) (ended : Bool) :
    shapes (p.drain labels ended) = shapes (q.drain labels' ended) := by
  induction hn : p.unread.length using Nat.strongRecOn generalizing p q with
  | _ n ih =>
    have hnext := shapes_next? labels labels' h ended
    cases hp : p.next? labels ended with
    | none =>
      rw [hp] at hnext
      rw [drain_of_none labels hp, drain_of_none labels' (Option.map_eq_none_iff.1 hnext.symm)]
      exact congrArg (Prod.mk []) h
    | some next =>
      obtain ⟨events, p'⟩ := next
      rw [hp] at hnext
      obtain ⟨⟨events', q'⟩, hq, hsame⟩ := Option.map_eq_some_iff.1 hnext.symm
      obtain ⟨hevents, hparser⟩ := Prod.mk.inj hsame
      have hlength : p'.unread.length < p.unread.length := length_lt_of_next? hp
      have hlater := ih _ (hn ▸ hlength) hparser.symm rfl
      obtain ⟨hlater, hlast⟩ := Prod.mk.inj hlater
      rw [drain_of_some labels hp, drain_of_some labels' hq, shapes, shapes, List.map_append,
        List.map_append, hevents, hlater, hlast]

theorem map_shape_close {p q : Parser} (h : p.shape = q.shape) :
    (p.close labels).map Event.shape = (q.close labels').map Event.shape := by
  obtain ⟨hevents, hlast⟩ := Prod.mk.inj (shapes_drain labels labels' h true)
  obtain ⟨hunread, hcursor, hr, -⟩ := eq_of_shape hlast
  unfold close
  dsimp only
  rw [hunread, hcursor]
  split
  · rw [List.map_append, List.map_append, hevents, map_shape_report, map_shape_report,
      Recognition.shape_close, hr, Recognition.shape_close]
  · exact hevents

theorem shape_feed {p q : Parser} (h : p.shape = q.shape) (bytes : Bytes) :
    (p.feed bytes).shape = (q.feed bytes).shape := by
  obtain ⟨hunread, hcursor, hr, -⟩ := eq_of_shape h
  show Parser.mk (p.unread ++ bytes) p.cursor p.recognition.shape
    = Parser.mk (q.unread ++ bytes) q.cursor q.recognition.shape
  rw [hunread, hcursor, hr]

end Parser

/-! ## The whole document -/

section

variable (labels labels' : Nat → String)

theorem map_shape_readFrom {p q : Parser} (h : p.shape = q.shape) (given : Nat) (rest : Bytes)
    (ds : List Directive) :
    (readFrom labels p given rest ds).map Event.shape
      = (readFrom labels' q given rest ds).map Event.shape := by
  induction ds generalizing p q given rest with
  | nil =>
    obtain ⟨hevents, hlast⟩ :=
      Prod.mk.inj (Parser.shapes_drain labels labels' (Parser.shape_feed h rest) false)
    rw [readFrom, readFrom, List.map_append, List.map_append, hevents,
      Parser.map_shape_close labels labels' hlast]
  | cons d ds ih =>
    obtain ⟨hevents, hlast⟩ := Prod.mk.inj
      (Parser.shapes_drain labels labels' (Parser.shape_feed h (rest.take (d.stop - given))) false)
    obtain ⟨-, -, -, -, hspaces⟩ := Parser.eq_of_shape hlast
    rw [readFrom, readFrom, List.map_append, List.map_append, List.map_cons, List.map_cons, hevents,
      ih hlast]
    congr 3
    simp only [Directive.announce, Parser.space?, Recognition.space?, hspaces]

end

/-! ### What does not know of labels -/

/-- What is asked of an event that does not depend on labels. -/
theorem filterMap_eq_of_map_shape {α : Type} {f : Event → Option α} (hf : ∀ e, f e.shape = f e)
    {events events' : List Event} (h : events.map Event.shape = events'.map Event.shape) :
    events.filterMap f = events'.filterMap f := by
  have hshape : ∀ events : List Event, (events.map Event.shape).filterMap f = events.filterMap f := by
    intro events
    rw [List.filterMap_map]
    exact congrArg (List.filterMap · events) (funext hf)
  rw [← hshape, h, hshape]

theorem statementsOf_map_shape (events : List Event) :
    statementsOf (events.map Event.shape) = (statementsOf events).map Statement.shape := by
  rw [statementsOf, statementsOf, List.filterMap_map, List.map_filterMap]
  congr 1
  funext e
  cases e <;> rfl

section

variable {events events' : List Event} (h : events.map Event.shape = events'.map Event.shape)
include h

theorem problemsOf_eq_of_map_shape : problemsOf events = problemsOf events' :=
  filterMap_eq_of_map_shape (fun e => by cases e <;> rfl) h

theorem undecodable_eq_of_map_shape (bytes : Bytes) :
    undecodable bytes events = undecodable bytes events' := by
  have hlines : problemLines events = problemLines events' :=
    filterMap_eq_of_map_shape (fun e => by cases e <;> rfl) h
  rw [undecodable, undecodable, hlines]

theorem mentioned_eq_of_map_shape : mentioned events = mentioned events' := by
  have hshape : ∀ events : List Event, mentioned (events.map Event.shape) = mentioned events := by
    intro events
    rw [mentioned, mentioned, List.flatMap_map]
    congr 1
    funext e
    cases e with
    | statement s => exact s.iris_shape
    | _ => rfl
  rw [← hshape, h, hshape]

end

/-- But for their labels, two readings of a document yield the same. -/
theorem map_shape_readAll (labels labels' : Nat → String) (base : Option Iri) (warnsUnused : Bool)
    (bytes : Bytes) :
    (readAll labels base warnsUnused bytes).map Event.shape
      = (readAll labels' base warnsUnused bytes).map Event.shape := by
  have hparser := map_shape_readFrom labels labels' (p := .start base) rfl 0 bytes
    (Directive.scan bytes)
  have hdeclared : ∀ events events' : List Event, events.map Event.shape = events'.map Event.shape →
      declared bytes (Directive.scan bytes) events = declared bytes (Directive.scan bytes) events' := by
    intro events events' h
    exact congrArg (List.zip · _) (filterMap_eq_of_map_shape (fun e => by cases e <;> rfl) h)
  unfold readAll
  dsimp only
  simp only [List.map_append]
  rw [hparser, undecodable_eq_of_map_shape hparser, hdeclared _ _ hparser,
    mentioned_eq_of_map_shape hparser]

end Trig
end TidyTrig
