import TidyTrig.Proofs.Trig.Terms

/-!
# The clauses of a written document

A written document is made of few kinds of clauses: directives, names of blocks, subjects,
predicates, and objects with the mark that follows them. For each there is one lemma that says what
reading it does to the state of recognition. Between clauses the state is `placed`: it differs from
the next one in its goals and in what is open, and keeps the declarations.

A literal in quotes is complete only when the next mark shows that neither a tag nor a datatype
follows, so an object is read together with its mark.
-/

namespace TidyTrig.Trig

open Utf8

namespace Recognition

/-- The state in which these goals are expected and nothing but this is open. -/
def placed (r : Recognition) (goals : List Goal) (graph : Option Term) (subjects : List Term)
    (predicates : List String) : Recognition :=
  { r with goals, graph, subjects, predicates, objects := [], faults := [], statements := [] }

/-- The same state after an object that completed these statements. -/
def after (r : Recognition) (object : Term) (statements : List Statement) : Recognition :=
  { r with objects := [object], statements }

end Recognition

/-- What is expected after the predicates of a statement in a graph. -/
def below : Option Term → List Goal
  | none => [.dot, .document]
  | some _ => [.blockEnd, .document]

/-- The goals in which an object is expected: the first of a predicate, or one more. -/
def ExpectsObject (graph : Option Term) (goals : List Goal) : Prop :=
  goals = .objects :: .predicatesEnd :: below graph
    ∨ goals = .object :: .objectsEnd :: .predicatesEnd :: below graph

section

variable (labels : Nat → String) (r : Recognition)

/-! ## Subjects and names of blocks -/

theorem accept_top {t : Token} {term : Term} (h : r.resource? t = some (.ok term))
    (graph : Option Term) :
    (r.placed [.document] graph [] []).accept labels t
      = r.placed [.blockOrPredicates term, .document] none [] [] := by
  have hplaced : (r.placed [.document] none [] []).resource? t = some (.ok term) := h
  have hsubject : (r.placed [.document] none [] []).acceptSubjectOrGraph t [.document]
      = r.placed [.blockOrPredicates term, .document] none [] [] := by
    unfold Recognition.acceptSubjectOrGraph
    rw [hplaced]
    rfl
  rw [← hsubject]
  show (r.placed [.document] graph [] []).acceptDocument t = _
  unfold Recognition.acceptDocument
  cases t with
  | iri | name | blank => rfl
  | _ => cases h

theorem accept_blockSubject {t : Token} {term : Term} (h : r.resource? t = some (.ok term))
    (graph : Term) :
    (r.placed [.blockStatement, .blockEnd, .document] (some graph) [] []).accept labels t
      = r.placed [.predicates, .blockEnd, .document] (some graph) [term] [] := by
  have hplaced : (r.placed [.blockStatement, .blockEnd, .document] (some graph) [] []).resource? t
      = some (.ok term) := h
  rw [Recognition.accept]
  show Recognition.acceptWith labels t [.blockStatement, .blockEnd, .document] _ = _
  unfold Recognition.acceptWith
  dsimp only
  rw [hplaced]
  rfl

/-! ## Predicates -/

/-- A word for a predicate: its keyword, or a word for its IRI. -/
def IsVerb (t : Token) (predicate : String) : Prop :=
  (t = .keyword "a" ∧ predicate = rdfType) ∨ r.iri? t = some (.ok predicate)

variable {r}

theorem acceptVerb_of_isVerb {t : Token} {predicate : String} (h : IsVerb r t predicate)
    (goals : List Goal) (graph : Option Term) (subjects : List Term) (rest : List Goal) :
    (r.placed goals graph subjects []).acceptVerb t rest
      = r.placed rest graph subjects [predicate] := by
  rcases h with ⟨rfl, rfl⟩ | h
  · rfl
  · have hplaced : (r.placed goals graph subjects []).iri? t = some (.ok predicate) := h
    unfold Recognition.acceptVerb
    split
    · cases h
    · rw [hplaced]
      rfl

theorem ne_mark_of_isVerb {t : Token} {predicate : String} (h : IsVerb r t predicate)
    (mark : Mark) : t ≠ .mark mark := by
  rintro rfl
  rcases h with ⟨h, -⟩ | h
  · cases h
  · cases h

theorem accept_firstVerb {t : Token} {predicate : String} (h : IsVerb r t predicate)
    (subject : Term) :
    (r.placed [.blockOrPredicates subject, .document] none [] []).accept labels t
      = r.placed (.objects :: .predicatesEnd :: below none) none [subject] [predicate] := by
  show Recognition.acceptWith labels t [.blockOrPredicates subject, .document] _ = _
  rw [Recognition.acceptWith, if_neg (ne_mark_of_isVerb h _)]
  exact acceptVerb_of_isVerb h [.blockOrPredicates subject, .document] none [subject] _

theorem accept_blockVerb {t : Token} {predicate : String} (h : IsVerb r t predicate)
    (graph subject : Term) :
    (r.placed [.predicates, .blockEnd, .document] (some graph) [subject] []).accept labels t
      = r.placed (.objects :: .predicatesEnd :: below (some graph)) (some graph) [subject]
        [predicate] := by
  show Recognition.acceptWith labels t [.predicates, .blockEnd, .document] _ = _
  rw [Recognition.acceptWith]
  exact acceptVerb_of_isVerb h [.predicates, .blockEnd, .document] (some graph) [subject] _

theorem accept_nextVerb {t : Token} {predicate : String} (h : IsVerb r t predicate)
    (graph : Option Term) (subject : Term) :
    (r.placed (.morePredicates :: below graph) graph [subject] []).accept labels t
      = r.placed (.objects :: .predicatesEnd :: below graph) graph [subject] [predicate] := by
  have hne := ne_mark_of_isVerb h
  show Recognition.acceptWith labels t (.morePredicates :: below graph) _ = _
  rw [Recognition.acceptWith, if_neg (hne _), if_neg (by simp [hne])]
  exact acceptVerb_of_isVerb h (.morePredicates :: below graph) graph [subject] _

/-! ## Marks after an object -/

/-- What a mark does after an object, with the statements that are complete by then. -/
def MarkLeadsTo (mark : Mark) (graph : Option Term) (subject : Term) (predicate : String)
    (next : Recognition) : Prop :=
  ∀ (goals : List Goal) (object : Term) (statements : List Statement),
    Recognition.acceptWith labels (.mark mark) (.objectsEnd :: .predicatesEnd :: below graph)
        ((r.placed goals graph [subject] [predicate]).after object statements)
      = { next with statements }

theorem dot_leadsTo_top (subject : Term) (predicate : String) :
    MarkLeadsTo (r := r) labels .dot none subject predicate
      (r.placed [.document] none [] []) := by
  intro goals object statements
  rfl

theorem dot_leadsTo_block (graph subject : Term) (predicate : String) :
    MarkLeadsTo (r := r) labels .dot (some graph) subject predicate
      (r.placed [.blockStatement, .blockEnd, .document] (some graph) [] []) := by
  intro goals object statements
  rfl

theorem comma_leadsTo (graph : Option Term) (subject : Term) (predicate : String) :
    MarkLeadsTo (r := r) labels .comma graph subject predicate
      (r.placed (.object :: .objectsEnd :: .predicatesEnd :: below graph) graph [subject]
        [predicate]) := by
  intro goals object statements
  rfl

theorem semicolon_leadsTo (graph : Option Term) (subject : Term) (predicate : String) :
    MarkLeadsTo (r := r) labels .semicolon graph subject predicate
      (r.placed (.morePredicates :: below graph) graph [subject] []) := by
  intro goals object statements
  rfl

/-! ## Objects with their marks -/

theorem accept_object {graph : Option Term} {goals : List Goal} (h : ExpectsObject graph goals)
    (t : Token) (subjects : List Term) (predicates : List String) :
    (r.placed goals graph subjects predicates).accept labels t
      = (r.placed goals graph subjects predicates).acceptObject t
        (.objectsEnd :: .predicatesEnd :: below graph) := by
  rcases h with rfl | rfl
  · rfl
  · rfl

section object

variable {graph : Option Term} {goals : List Goal} {subject : Term} {predicate : String}
  {next : Recognition}

/-- A resource is complete at once. -/
theorem accept_resource (hgoals : ExpectsObject graph goals) {t : Token} {term : Term}
    (h : r.resource? t = some (.ok term)) :
    (r.placed goals graph [subject] [predicate]).accept labels t
      = (r.placed (.objectsEnd :: .predicatesEnd :: below graph) graph [subject]
        [predicate]).after term [⟨graph, subject, .iri predicate, term⟩] := by
  have hplaced : (r.placed goals graph [subject] [predicate]).resource? t = some (.ok term) := h
  rw [accept_object labels hgoals]
  unfold Recognition.acceptObject
  rw [hplaced]
  rfl

/-- A string is not complete: the next token tells what literal it is. -/
theorem accept_string (hgoals : ExpectsObject graph goals) (value : String) :
    (r.placed goals graph [subject] [predicate]).accept labels (.string value)
      = r.placed (.literalTag value :: .objectsEnd :: .predicatesEnd :: below graph) graph
        [subject] [predicate] := by
  rw [accept_object labels hgoals]
  rfl

/-- The mark that completes an object, after a space. -/
theorem reads_mark {mark : Mark} {word : UInt8} (hword : Lexes r.base [word] (.mark mark) IsGap)
    (hmark : MarkLeadsTo (r := r) labels mark graph subject predicate next)
    (hnext : next.faults = [] ∧ next.statements = []) (object : Term) {c : UInt8} (hc : IsGap c)
    (rest : Bytes) :
    Reads labels ((r.placed (.objectsEnd :: .predicatesEnd :: below graph) graph [subject]
        [predicate]).after object []) (byte ' ' :: word :: c :: rest) [] next (c :: rest) := by
  have haccept := hmark (.objectsEnd :: .predicatesEnd :: below graph) object []
  have hsame : { next with statements := [] } = next := by
    rw [← hnext.2]
  rw [hsame] at haccept
  have hcleared : next.cleared = next := by
    rw [Recognition.cleared]
    rw [← hnext.1, ← hnext.2]
  have hreads := Lexes.reads (r := (r.placed (.objectsEnd :: .predicatesEnd :: below graph) graph
    [subject] [predicate]).after object []) hword labels
    (by rw [Recognition.accept]; exact haccept ▸ hnext.1) hc rest
  have hthis : Recognition.accept labels (.mark mark)
      ((r.placed (.objectsEnd :: .predicatesEnd :: below graph) graph [subject]
        [predicate]).after object []) = next := haccept
  rw [hthis, hnext.2, hcleared] at hreads
  exact (Reads.blanks (Skips.space _)).trans hreads

/-- A word that completes the object, in front of the mark after it. -/
theorem reads_completed {t : Token} {word : Bytes} {goals' : List Goal}
    (hword : Lexes r.base word t IsGap) {object : Term}
    (haccept : (r.placed goals' graph [subject] [predicate]).accept labels t
      = (r.placed (.objectsEnd :: .predicatesEnd :: below graph) graph [subject]
        [predicate]).after object [⟨graph, subject, .iri predicate, object⟩])
    {mark : Mark} {m : UInt8} (hm : Lexes r.base [m] (.mark mark) IsGap)
    (hmark : MarkLeadsTo (r := r) labels mark graph subject predicate next)
    (hnext : next.faults = [] ∧ next.statements = []) {c : UInt8} (hc : IsGap c) (rest : Bytes) :
    Reads labels (r.placed goals' graph [subject] [predicate]) (word ++ byte ' ' :: m :: c :: rest)
      [⟨graph, subject, .iri predicate, object⟩] next (c :: rest) := by
  have hreads := Lexes.reads (r := r.placed goals' graph [subject] [predicate]) hword labels
    (by rw [haccept]; rfl) (.inl rfl) (m :: c :: rest)
  rw [haccept] at hreads
  exact hreads.trans (reads_mark labels hm hmark hnext object hc rest)

/-- The text of a literal comes first, and leaves it open. -/
theorem reads_string (hgoals : ExpectsObject graph goals) (text : String) {b : UInt8}
    (hb : b ≠ byte '\x22') (tail : Bytes) :
    Reads labels (r.placed goals graph [subject] [predicate]) (encode (quoted text) ++ b :: tail) []
      (r.placed (.literalTag text :: .objectsEnd :: .predicatesEnd :: below graph) graph [subject]
        [predicate]) (b :: tail) := by
  have haccept : (r.placed goals graph [subject] [predicate]).accept labels (.string text) = _ :=
    accept_string labels hgoals text
  have hreads := Lexes.reads (r := r.placed goals graph [subject] [predicate])
    (lexes_quoted r.base text) labels (by rw [haccept]; rfl) hb tail
  rw [haccept] at hreads
  exact hreads

/-- The mark after a string without tag and datatype completes it, and goes on. -/
theorem reads_simple (text : String) {mark : Mark} {m : UInt8}
    (hm : Lexes r.base [m] (.mark mark) IsGap) (hcaret : mark ≠ .caret2)
    (hmark : MarkLeadsTo (r := r) labels mark graph subject predicate next)
    (hnext : next.faults = [] ∧ next.statements = []) {c : UInt8} (hc : IsGap c) (rest : Bytes) :
    Reads labels (r.placed (.literalTag text :: .objectsEnd :: .predicatesEnd :: below graph) graph
        [subject] [predicate]) (byte ' ' :: m :: c :: rest)
      [⟨graph, subject, .iri predicate, .literal (.simple text)⟩] next (c :: rest) := by
  have haccept : (r.placed (.literalTag text :: .objectsEnd :: .predicatesEnd :: below graph) graph
      [subject] [predicate]).accept labels (.mark mark)
      = { next with statements := [⟨graph, subject, .iri predicate, .literal (.simple text)⟩] } := by
    rw [← hmark (.literalTag text :: .objectsEnd :: .predicatesEnd :: below graph)]
    show Recognition.acceptWith labels (.mark mark)
      (.literalTag text :: .objectsEnd :: .predicatesEnd :: below graph) _ = _
    cases mark with
    | caret2 => exact absurd rfl hcaret
    | _ => rfl
  have hcleared : Recognition.cleared { next with
      statements := [⟨graph, subject, .iri predicate, .literal (.simple text)⟩] } = next := by
    rw [Recognition.cleared]
    rw [← hnext.1, ← hnext.2]
  have hreads := Lexes.reads (r := r.placed (.literalTag text :: .objectsEnd :: .predicatesEnd
    :: below graph) graph [subject] [predicate]) hm labels
    (by rw [haccept]; exact hnext.1) hc rest
  rw [haccept, hcleared] at hreads
  exact (Reads.blanks (Skips.space _)).trans hreads

theorem accept_tag (text : String) {language : String} (h : LanguageTag.isTag language) :
    (r.placed (.literalTag text :: .objectsEnd :: .predicatesEnd :: below graph) graph [subject]
        [predicate]).accept labels (.language language)
      = (r.placed (.objectsEnd :: .predicatesEnd :: below graph) graph [subject] [predicate]).after
        (.literal (.tagged text language))
        [⟨graph, subject, .iri predicate, .literal (.tagged text language)⟩] := by
  show (Recognition.expect (Recognition.emit _
    (.literal (.tagged text (lowercase language)))) _) = _
  rw [LanguageTag.lowercase_of_isTag h]
  rfl

theorem accept_datatype (text : String) {t : Token} {datatype : String}
    (h : r.iri? t = some (.ok datatype)) (proper : datatype ≠ xsdString) :
    (r.placed (.literalDatatype text :: .objectsEnd :: .predicatesEnd :: below graph) graph
        [subject] [predicate]).accept labels t
      = (r.placed (.objectsEnd :: .predicatesEnd :: below graph) graph [subject] [predicate]).after
        (.literal (.typed text datatype proper))
        [⟨graph, subject, .iri predicate, .literal (.typed text datatype proper)⟩] := by
  have hplaced : (r.placed (.literalDatatype text :: .objectsEnd :: .predicatesEnd :: below graph)
      graph [subject] [predicate]).iri? t = some (.ok datatype) := h
  have hliteral : Literal.ofDatatype text datatype = .typed text datatype proper := by
    rw [Literal.ofDatatype, dif_neg proper]
  show Recognition.acceptWith labels t
    (.literalDatatype text :: .objectsEnd :: .predicatesEnd :: below graph) _ = _
  unfold Recognition.acceptWith
  dsimp only
  rw [hplaced]
  dsimp only
  rw [hliteral]
  rfl

/-- An object and its mark complete one statement. -/
theorem reads_object {spaces : List Namespace} (hknows : Knows r spaces)
    (hgoals : ExpectsObject graph goals) {object : Term} (hobject : object.isSpellable)
    {mark : Mark} {m : UInt8} (hm : Lexes r.base [m] (.mark mark) IsGap) (hcaret : mark ≠ .caret2)
    (hmark : MarkLeadsTo (r := r) labels mark graph subject predicate next)
    (hnext : next.faults = [] ∧ next.statements = []) {c : UInt8} (hc : IsGap c) (rest : Bytes) :
    Reads labels (r.placed goals graph [subject] [predicate])
      (encode (spellTerm spaces object) ++ byte ' ' :: m :: c :: rest)
      [⟨graph, subject, .iri predicate, object⟩] next (c :: rest) := by
  have hresource : ∀ term : Term, term.isResource → term.isSpellable →
      Reads labels (r.placed goals graph [subject] [predicate])
        (encode (spellTerm spaces term) ++ byte ' ' :: m :: c :: rest)
        [⟨graph, subject, .iri predicate, term⟩] next (c :: rest) := by
    intro term hkind hterm
    obtain ⟨t, hword, hstands⟩ := exists_word_of_resource hknows hkind hterm
    exact reads_completed labels hword (accept_resource labels hgoals hstands) hm hmark hnext hc rest
  cases object with
  | iri text => exact hresource (.iri text) rfl hobject
  | blank label => exact hresource (.blank label) rfl hobject
  | literal value =>
    cases value with
    | simple text =>
      exact (reads_string labels hgoals text (by decide) _).trans
        (reads_simple labels text hm hcaret hmark hnext hc rest)
    | tagged text language =>
      have htag := reads_completed labels (lexes_language r.base hobject)
        (accept_tag labels text hobject) hm hmark hnext hc rest
      rw [encode_append] at htag
      rw [spellTerm, spellLiteral, encode_append, encode_append, List.append_assoc,
        List.append_assoc]
      rw [List.append_assoc] at htag
      exact (reads_string labels hgoals text (b := byte '@') (by decide) _).trans htag
    | typed text datatype proper =>
      obtain ⟨t, hword, hiri⟩ := exists_word_of_iri hknows hobject
      have hdatatype := reads_completed labels hword (accept_datatype labels text hiri proper) hm
        hmark hnext hc rest
      obtain ⟨b, tail, hspelled, -⟩ := hword
      have hcarets := Lexes.reads (r := r.placed (.literalTag text :: .objectsEnd :: .predicatesEnd
        :: below graph) graph [subject] [predicate]) (lexes_caret2 r.base fun _ => True)
        labels rfl (c := b) trivial (tail ++ byte ' ' :: m :: c :: rest)
      rw [spellTerm, spellLiteral, encode_append, encode_append, List.append_assoc,
        List.append_assoc, hspelled]
      rw [hspelled] at hdatatype
      exact (reads_string labels hgoals text (b := byte '^') (by decide) _).trans
        (hcarets.trans hdatatype)

end object

/-! ## Directives -/

theorem isTag_prefix : LanguageTag.isTag "prefix" := by decide +kernel

/-- A directive declares what stands between its brackets. -/
theorem reads_directive {space : Namespace} (hname : isPrefixName space.name.toList) {i : Iri}
    (hiri : ReadsAs r.base space.iri i) (graph : Option Term) (rest : Bytes) :
    Reads labels (r.placed [.document] graph [] [])
      (encode ("@prefix " ++ space.name ++ ": <" ++ space.iri ++ "> .\n") ++ rest) []
      ((r.declare space.name i).placed [.document] none [] []) rest := by
  have hword := lexes_name r.base hname (rfl : isPlainName [] = true)
  rw [String.ofList_toList] at hword
  have hkeyword : ∀ rest, Reads labels (r.placed [.document] graph [] [])
      (encode ("@" ++ "prefix") ++ byte ' ' :: rest) []
      (r.placed [.declaredName, .dot, .document] none [] []) rest := fun rest =>
    (Lexes.reads (r := r.placed [.document] graph [] []) (lexes_language r.base isTag_prefix)
      labels rfl (.inl rfl) rest).trans (.blanks (Skips.space rest))
  have hnamed : ∀ rest, Reads labels (r.placed [.declaredName, .dot, .document] none [] [])
      (encode (space.name ++ ":" ++ String.ofList []) ++ byte ' ' :: rest) []
      (r.placed [.declaredIri space.name, .dot, .document] none [] []) rest := fun rest =>
    (Lexes.reads (r := r.placed [.declaredName, .dot, .document] none [] []) hword
      labels rfl (.inl rfl) rest).trans (.blanks (Skips.space rest))
  have hdeclared : ∀ rest, Reads labels
      (r.placed [.declaredIri space.name, .dot, .document] none [] [])
      (encode ("<" ++ space.iri ++ ">") ++ byte ' ' :: rest) []
      ((r.declare space.name i).placed [.dot, .document] none [] []) rest := fun rest =>
    (Lexes.reads (r := r.placed [.declaredIri space.name, .dot, .document] none [] [])
      (lexes_iri hiri IsGap) labels rfl (.inl rfl) rest).trans (.blanks (Skips.space rest))
  have hended : Reads labels ((r.declare space.name i).placed [.dot, .document] none [] [])
      ([byte '.'] ++ byte '\n' :: rest) []
      ((r.declare space.name i).placed [.document] none [] []) rest :=
    (Lexes.reads (r := (r.declare space.name i).placed [.dot, .document] none [] [])
      (lexes_dot r.base) labels rfl (.inr rfl) rest).trans (.blanks (Skips.lineFeed rest))
  have htext : encode ("@prefix " ++ space.name ++ ": <" ++ space.iri ++ "> .\n") ++ rest
      = encode ("@" ++ "prefix") ++ byte ' ' :: (encode (space.name ++ ":" ++ String.ofList [])
        ++ byte ' ' :: (encode ("<" ++ space.iri ++ ">") ++ byte ' ' ::
          ([byte '.'] ++ byte '\n' :: rest))) := by
    simp only [encode_append, List.append_assoc]
    rfl
  rw [htext]
  exact (hkeyword _).trans ((hnamed _).trans ((hdeclared _).trans hended))

/-! ## Verbs -/

theorem exists_word_of_predicate {spaces : List Namespace} (hknows : Knows r spaces)
    (usesKeyword : Bool) {predicate : String} (h : isIri predicate) :
    ∃ t, Lexes r.base (encode (spellPredicate spaces usesKeyword (.iri predicate))) t IsGap
      ∧ IsVerb r t predicate := by
  unfold spellPredicate
  split
  · next hkeyword =>
    rw [Bool.and_eq_true, decide_eq_true_eq] at hkeyword
    exact ⟨.keyword "a", lexes_a r.base, .inl ⟨rfl, Term.iri.inj hkeyword.2⟩⟩
  · obtain ⟨t, hword, hiri⟩ := exists_word_of_iri hknows h
    exact ⟨t, hword, .inr hiri⟩

end

end TidyTrig.Trig
