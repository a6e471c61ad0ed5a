import TidyTrig.Proofs.Trig.Terms

/-!
# IRIs that wait for their statement

An IRI that was read is not part of a statement at once. A subject waits for its first object, and so
does a predicate; both wait longer if that object is a bracket or a collection. So the invariant
`Awaits` tells which IRIs the goals still have to bring into a statement. A token that causes no fault
keeps it (`Recognition.carries_accept`): an IRI that was awaited, or that the token stands for as a
term, is awaited then, or the token completed a statement that mentions it. At the end of a document
nothing is awaited (`Recognition.eq_nil_of_close`).
-/

namespace TidyTrig

theorem Term.iri?_eq_some_iff {t : Term} {x : String} : t.iri? = some x ↔ t = .iri x := by
  cases t <;> simp [Term.iri?]

namespace Trig

namespace Recognition

variable {labels : Nat → String} {t : Token}

/-! ## What a token adds -/

/-- Faults and statements come on top of those that are there. -/
def Extends (r r' : Recognition) : Prop :=
  r.faults <:+ r'.faults ∧ r.statements <:+ r'.statements

theorem Extends.refl (r : Recognition) : Extends r r := ⟨List.suffix_rfl, List.suffix_rfl⟩

theorem Extends.trans {r r' r'' : Recognition} (h : Extends r r') (h' : Extends r' r'') :
    Extends r r'' :=
  ⟨h.1.trans h'.1, h.2.trans h'.2⟩

section

variable (r : Recognition) (below : List Goal)

theorem extends_note (fault : SyntaxFault) : Extends r (r.note fault) :=
  ⟨List.suffix_cons _ _, List.suffix_rfl⟩

theorem extends_fail (fault : SyntaxFault) : Extends r (r.fail fault) :=
  ⟨List.suffix_cons _ _, List.suffix_rfl⟩

theorem extends_emit (object : Term) : Extends r (r.emit object) := by
  unfold emit
  dsimp only
  split
  · exact ⟨List.suffix_rfl, List.suffix_cons _ _⟩
  · exact Extends.refl r

theorem extends_emitRest (node : Option Term) (rest : Term) : Extends r (r.emitRest node rest) := by
  cases node with
  | none => exact Extends.refl r
  | some node => exact ⟨List.suffix_rfl, List.suffix_cons _ _⟩

theorem extends_acceptVerb : Extends r (r.acceptVerb t below) := by
  unfold acceptVerb
  split
  · exact Extends.refl r
  · split
    · exact Extends.refl r
    · exact extends_fail r _
    · exact extends_fail r _

theorem extends_acceptPredicates : Extends r (r.acceptPredicates t below) :=
  extends_acceptVerb r _

theorem extends_acceptObject : Extends r (r.acceptObject t below) := by
  unfold acceptObject
  split
  · exact extends_emit r _
  · exact extends_fail r _
  · split
    · exact Extends.refl r
    · exact Extends.refl r
    · exact Extends.refl r
    · split
      · exact extends_emit r _
      · exact extends_fail r _

theorem extends_acceptItem (node : Term) : Extends r (r.acceptItem t node below) :=
  extends_acceptObject ((r.pushSubject node).pushPredicate rdfFirst) _

theorem extends_acceptCollectionEnd : Extends r (r.acceptCollectionEnd labels t below) := by
  unfold acceptCollectionEnd
  generalize r.subjects.head? = node
  generalize hpopped : r.popSubject.popObject = popped
  have hr : Extends r popped := hpopped ▸ Extends.refl r
  dsimp only
  split
  · exact hr.trans (extends_emitRest popped.popPredicate _ _)
  · refine hr.trans ((extends_emitRest popped.draw node (popped.fresh labels)).trans ?_)
    exact @extends_acceptObject t (((popped.draw.emitRest node (popped.fresh labels))).pushSubject
      (popped.fresh labels)) _

theorem extends_acceptSubjectOrGraph : Extends r (r.acceptSubjectOrGraph t below) := by
  unfold acceptSubjectOrGraph
  split
  · exact Extends.refl r
  · exact extends_fail r _
  · split
    · exact Extends.refl r
    · exact Extends.refl r
    · exact extends_fail r _

theorem extends_acceptDocument : Extends r (r.acceptDocument t) := by
  have hgraph := @extends_acceptSubjectOrGraph t { r with graph := none } [.document]
  unfold acceptDocument
  dsimp only
  split
  · exact Extends.refl r
  · exact Extends.refl r
  · exact Extends.refl r
  · split
    · exact Extends.refl r
    · split
      · exact Extends.refl r
      · split
        · exact Extends.refl r
        · exact hgraph
  · exact hgraph

theorem extends_recover : Extends r (r.recover t) := by
  unfold recover
  split <;> exact Extends.refl r

theorem extends_acceptWith (goals : List Goal) : Extends r (acceptWith labels t goals r) := by
  induction goals generalizing r with
  | nil => exact extends_recover r
  | cons goal below ih =>
    -- Each goal uses the token up, faults it, or leaves it to the goals below.
    unfold acceptWith
    cases goal with
    | document => exact extends_acceptDocument r
    | dot =>
      dsimp only
      split
      · exact Extends.refl r
      · exact (extends_note r.popSubject _).trans (ih _)
    | baseIri | declaredName | declaredIri | graphBracketEnd =>
      dsimp only
      split
      · exact Extends.refl r
      · exact extends_fail r _
    | subjectOrGraph => exact extends_acceptSubjectOrGraph r below
    | blockOrPredicates resource =>
      dsimp only
      split
      · exact Extends.refl r
      · exact @extends_acceptPredicates t (r.pushSubject resource) _
    | leadingBracket =>
      dsimp only
      split
      · exact Extends.refl r
      · exact @extends_acceptPredicates t (r.draw.pushSubject _) _
    | subjectBracketEnd =>
      dsimp only
      split
      · exact Extends.refl r
      · split
        · exact (extends_note r _).trans (ih _)
        · exact (extends_note r _).trans (extends_acceptPredicates _ _)
    | optionalPredicates =>
      dsimp only
      split
      · exact ih r
      · exact extends_acceptPredicates r below
    | subjectCollection =>
      dsimp only
      split
      · exact Extends.refl r
      · exact @extends_acceptItem t (r.draw.pushSubject _) _ _
    | collectionEnd => exact extends_acceptCollectionEnd r below
    | block =>
      dsimp only
      split
      · exact Extends.refl r
      · exact extends_fail r _
    | blockEnd =>
      dsimp only
      split
      · exact Extends.refl r
      · split
        · exact Extends.refl r
        · exact (extends_note r.popSubject _).trans (ih _)
    | blockStatement =>
      dsimp only
      split
      · exact Extends.refl r
      · exact extends_fail r _
      · split
        · exact ih r
        · exact Extends.refl r
        · exact Extends.refl r
        · exact extends_fail r _
    | blockBracket =>
      dsimp only
      split
      · exact Extends.refl r
      · exact extends_acceptPredicates r _
    | graphName =>
      dsimp only
      split
      · exact Extends.refl r
      · exact extends_fail r _
      · split
        · exact Extends.refl r
        · exact extends_fail r _
    | predicates => exact extends_acceptPredicates r below
    | predicatesEnd =>
      dsimp only
      split
      · exact Extends.refl r
      · exact ih r.popPredicate
    | morePredicates =>
      dsimp only
      split
      · exact Extends.refl r
      · split
        · exact ih r
        · exact extends_acceptPredicates r below
    | verb => exact extends_acceptVerb r below
    | objects | object => exact extends_acceptObject r _
    | objectsEnd =>
      dsimp only
      split
      · exact Extends.refl r
      · exact ih r.popObject
    | objectBracket =>
      dsimp only
      split
      · exact extends_emit r.draw _
      · exact @extends_acceptPredicates t (r.draw.pushSubject _) _
    | objectBracketEnd =>
      dsimp only
      split
      · split
        · exact extends_emit r.popSubject _
        · exact Extends.refl r
      · exact extends_fail r _
    | objectCollection =>
      dsimp only
      split
      · exact extends_emit r _
      · exact (extends_emit r.draw _).trans (extends_acceptItem _ _ _)
    | literalTag value =>
      dsimp only
      split
      · exact extends_emit r _
      · exact Extends.refl r
      · exact (extends_emit r _).trans (ih _)
    | literalDatatype value =>
      dsimp only
      split
      · exact extends_emit r _
      · exact extends_fail r _
      · exact (extends_fail r _).trans (extends_recover _)

end

end Recognition

/-! ## What is awaited -/

/-- What follows a statement: at the top a dot, in a block the end of the block. -/
inductive EndsStatement : List Goal → Prop
  | dot : EndsStatement [.dot, .document]
  | blockEnd : EndsStatement [.blockEnd, .document]

/-- Goals between statements. The first resource after one may still be the name of a block. -/
inductive IsBetween : List Goal → Prop
  | document : IsBetween [.document]
  | blockOrPredicates {resource} : IsBetween [.blockOrPredicates resource, .document]
  | baseIri {below} (h : IsBetween below) : IsBetween (.baseIri :: below)
  | declaredName {below} (h : IsBetween below) : IsBetween (.declaredName :: below)
  | declaredIri {space below} (h : IsBetween below) : IsBetween (.declaredIri space :: below)
  | leadingBracket : IsBetween [.leadingBracket, .document]
  | graphName : IsBetween [.graphName, .block, .document]
  | graphBracketEnd : IsBetween [.graphBracketEnd, .block, .document]
  | block : IsBetween [.block, .document]
  | blockStatement : IsBetween [.blockStatement, .blockEnd, .document]
  | ending {goals} (h : EndsStatement goals) : IsBetween goals

/-- Whether a goal is for an object or the rest of one. When it is met, there is a statement with the
open subject and predicate. -/
def Goal.isForObject : Goal → Bool
  | .objects | .object | .objectBracket | .objectCollection | .literalTag _ | .literalDatatype _ =>
    true
  | _ => false

/-- Within a statement, goals are stacked as the grammar nests what they are for. These await the IRIs
`awaited` of open subjects and predicates: each will be part of a statement if there is no fault. -/
inductive Within : List Goal → List Term → List String → List String → Prop
  | ending {goals subjects predicates} (h : EndsStatement goals) :
      Within goals subjects predicates []
  | subjectCollection {goals subjects predicates} (h : EndsStatement goals) :
      Within (.subjectCollection :: .predicates :: goals) subjects predicates []
  | bracket {goal goals subject subjects predicates} (h : EndsStatement goals)
      (hgoal : goal = .blockBracket ∨ goal = .subjectBracketEnd ∨ goal = .optionalPredicates) :
      Within (goal :: goals) (subject :: subjects) predicates []
  | predicates {goals subject subjects predicates} (h : EndsStatement goals) :
      Within (.predicates :: goals) (subject :: subjects) predicates subject.iri?.toList
  | predicatesEnd {below subject subjects predicate predicates awaited}
      (h : Within below (subject :: subjects) predicates awaited) :
      Within (.predicatesEnd :: below) (subject :: subjects) (predicate :: predicates) awaited
  | morePredicates {below subject subjects predicates awaited}
      (h : Within below (subject :: subjects) predicates awaited) :
      Within (.morePredicates :: below) (subject :: subjects) predicates awaited
  | object {goal below subject subjects predicate predicates awaited} (hgoal : goal.isForObject)
      (h : Within below (subject :: subjects) (predicate :: predicates) awaited) :
      Within (goal :: below) (subject :: subjects) (predicate :: predicates)
        (subject.iri?.toList ++ predicate :: awaited)
  | objectsEnd {below subject subjects predicate predicates awaited}
      (h : Within below (subject :: subjects) (predicate :: predicates) awaited) :
      Within (.objectsEnd :: below) (subject :: subjects) (predicate :: predicates) awaited
  | objectBracketEnd {below node subject subjects predicate predicates awaited}
      (h : Within below (subject :: subjects) (predicate :: predicates) awaited) :
      Within (.objectBracketEnd :: below) (node :: subject :: subjects) (predicate :: predicates)
        (subject.iri?.toList ++ predicate :: awaited)
  | collectionEnd {below node subjects predicate predicates awaited}
      (h : Within below subjects predicates awaited) :
      Within (.collectionEnd :: below) (node :: subjects) (predicate :: predicates) awaited

theorem EndsStatement.length_eq {goals : List Goal} (h : EndsStatement goals) :
    goals.length = 2 := by
  cases h <;> rfl

section

variable {goals : List Goal} {subjects : List Term} {predicates awaited : List String}

/-- Something ends the statement, and something follows it. -/
theorem Within.two_le_length (h : Within goals subjects predicates awaited) :
    2 ≤ goals.length := by
  induction h with
  | ending h => exact Nat.le_of_eq h.length_eq.symm
  | subjectCollection h | bracket h _ | predicates h =>
    have := h.length_eq
    simp only [List.length_cons]
    omega
  | predicatesEnd _ ih | morePredicates _ ih | object _ _ ih | objectsEnd _ ih
  | objectBracketEnd _ ih | collectionEnd _ ih =>
    exact Nat.le_succ_of_le ih

/-- Above nothing but the goal between statements there is just what ends one. -/
theorem Within.endsStatement {goal : Goal}
    (h : Within [goal, .document] subjects predicates awaited) :
    EndsStatement [goal, .document] := by
  cases h with
  | ending h => exact h
  | bracket h _ | predicates h => cases h
  | predicatesEnd h | morePredicates h | object _ h | objectsEnd h | objectBracketEnd h
  | collectionEnd h =>
    exact absurd h.two_le_length (by decide)

end

/-- What is awaited by these goals: nothing between statements, and IRIs within one. -/
inductive Awaits : List Goal → List Term → List String → List String → Prop
  | between {goals subjects predicates} (h : IsBetween goals) : Awaits goals subjects predicates []
  | within {goals subjects predicates awaited} (h : Within goals subjects predicates awaited) :
      Awaits goals subjects predicates awaited

namespace Recognition

/-- Whether a statement that the last token completed mentions an IRI. -/
def Mentions (r : Recognition) (x : String) : Prop := ∃ s ∈ r.statements, x ∈ s.iris

theorem Mentions.mono {r r' : Recognition} {x : String} (h : r.Mentions x) (hr : Extends r r') :
    r'.Mentions x := by
  obtain ⟨s, hs, hx⟩ := h
  exact ⟨s, hr.2.subset hs, hx⟩

/-- The IRIs that recognition still has to bring into a statement. -/
def IsAwaiting (r : Recognition) (awaited : List String) : Prop :=
  Awaits r.goals r.subjects r.predicates awaited

/-- There was a fault, or an IRI that is due is awaited or mentioned. -/
def Carries (x : String) (due : Prop) (r : Recognition) : Prop :=
  r.faults ≠ [] ∨ ∃ awaited, r.IsAwaiting awaited ∧ (due → x ∈ awaited ∨ r.Mentions x)

section

variable {x : String} {due : Prop} {r : Recognition}

theorem carries_of_extends_note {r' : Recognition} {fault : SyntaxFault}
    (h : Extends (r.note fault) r') : Carries x due r' :=
  .inl fun hnone => List.cons_ne_nil _ _ (List.suffix_nil.1 (hnone ▸ h.1))

theorem carries_fail (fault : SyntaxFault) : Carries x due (r.fail fault) :=
  .inl (List.cons_ne_nil _ _)

variable {below : List Goal} {subject : Term} {subjects : List Term} {predicate : String}
  {predicates awaited : List String}

theorem carries_expect (hsubjects : r.subjects = subjects) (hpredicates : r.predicates = predicates)
    {goals : List Goal} (h : Within goals subjects predicates awaited)
    (hdue : due → x ∈ awaited ∨ r.Mentions x) : Carries x due (r.expect goals) := by
  subst hsubjects hpredicates
  exact .inr ⟨awaited, .within h, hdue⟩

/-- A statement mentions its subject, its predicate and its object. -/
theorem mentions_emit (hsubjects : r.subjects = subject :: subjects)
    (hpredicates : r.predicates = predicate :: predicates) {object : Term}
    (h : x ∈ subject.iri?.toList ∨ x = predicate ∨ x ∈ object.mentioned?.toList) :
    (r.emit object).Mentions x := by
  have hstatements : (r.emit object).statements
      = ⟨r.graph, subject, .iri predicate, object⟩ :: r.statements := by
    unfold emit pushObject
    dsimp only
    rw [hsubjects, hpredicates]
  refine ⟨⟨r.graph, subject, .iri predicate, object⟩, ?_, ?_⟩
  · rw [hstatements]
    exact List.mem_cons_self
  · rw [Statement.iris, List.mem_filterMap]
    rcases h with h | rfl | h
    · refine ⟨subject, by simp [Statement.terms], ?_⟩
      rw [Option.mem_toList, Term.iri?_eq_some_iff] at h
      rw [h]
      rfl
    · exact ⟨.iri x, by simp [Statement.terms], rfl⟩
    · exact ⟨object, by simp [Statement.terms], by simpa using h⟩

theorem subjects_emit (object : Term) : (r.emit object).subjects = r.subjects := by
  unfold emit
  dsimp only
  split <;> rfl

theorem predicates_emit (object : Term) : (r.emit object).predicates = r.predicates := by
  unfold emit
  dsimp only
  split <;> rfl

theorem iri?_emit (object : Term) (t : Token) : (r.emit object).iri? t = r.iri? t := by
  unfold emit
  dsimp only
  split <;> rfl

theorem carries_emit (hsubjects : r.subjects = subject :: subjects)
    (hpredicates : r.predicates = predicate :: predicates)
    (hbelow : Within below (subject :: subjects) (predicate :: predicates) awaited) {object : Term}
    (hdue : due → x ∈ subject.iri?.toList ++ predicate :: awaited
      ∨ x ∈ object.mentioned?.toList ∨ r.Mentions x) :
    Carries x due ((r.emit object).expect below) := by
  refine carries_expect ((subjects_emit object).trans hsubjects)
    ((predicates_emit object).trans hpredicates) hbelow fun h => ?_
  rcases hdue h with hx | hx | hx
  · rcases List.mem_append.1 hx with hx | hx
    · exact .inr (mentions_emit hsubjects hpredicates (.inl hx))
    · rcases List.mem_cons.1 hx with hx | hx
      · exact .inr (mentions_emit hsubjects hpredicates (.inr (.inl hx)))
      · exact .inl hx
  · exact .inr (mentions_emit hsubjects hpredicates (.inr (.inr hx)))
  · exact .inr (hx.mono (extends_emit r object))

/-- A predicate is awaited with its subject. -/
theorem carries_acceptPredicates (hsubjects : r.subjects = subject :: subjects)
    (hpredicates : r.predicates = predicates)
    (hbelow : Within below (subject :: subjects) predicates awaited)
    (hdue : due → x ∈ subject.iri?.toList ++ awaited ∨ r.iri? t = some (.ok x)
      ∨ r.Mentions x) :
    Carries x due (r.acceptPredicates t below) := by
  have hpush : ∀ iri, (due → x ∈ subject.iri?.toList ++ awaited ∨ x = iri ∨ r.Mentions x) →
      Carries x due ((r.pushPredicate iri).expect (.objects :: .predicatesEnd :: below)) := by
    intro iri hdue
    refine carries_expect (r := r.pushPredicate iri) hsubjects (congrArg (List.cons iri) hpredicates)
      (.object rfl (.predicatesEnd hbelow)) fun h => ?_
    rcases hdue h with hx | rfl | hx
    · rcases List.mem_append.1 hx with hx | hx
      · exact .inl (List.mem_append_left _ hx)
      · exact .inl (List.mem_append_right _ (List.mem_cons_of_mem _ hx))
    · exact .inl (List.mem_append_right _ List.mem_cons_self)
    · exact .inr hx
  unfold acceptPredicates acceptVerb
  split
  · exact hpush rdfType fun h => (hdue h).imp_right fun hx => .inr (hx.resolve_left nofun)
  · split
    · next iri hiri =>
      rw [hiri] at hdue
      refine hpush iri fun h => (hdue h).imp_right fun hx => hx.imp_left ?_
      rintro hsame
      cases hsame
      rfl
    · exact carries_fail _
    · exact carries_fail _

/-- An object completes a statement, or is awaited with the subject and the predicate. -/
theorem carries_acceptObject (hsubjects : r.subjects = subject :: subjects)
    (hpredicates : r.predicates = predicate :: predicates)
    (hbelow : Within below (subject :: subjects) (predicate :: predicates) awaited)
    (hdue : due → x ∈ subject.iri?.toList ++ predicate :: awaited
      ∨ r.iri? t = some (.ok x) ∨ r.Mentions x) :
    Carries x due (r.acceptObject t below) := by
  have hopen : ∀ goal : Goal, goal.isForObject → r.iri? t = none →
      Carries x due (r.expect (goal :: below)) := by
    intro goal hgoal hiri
    rw [hiri] at hdue
    exact carries_expect hsubjects hpredicates (.object hgoal hbelow) fun h =>
      (hdue h).imp_right fun hx => hx.resolve_left nofun
  unfold acceptObject
  split
  · next resource hresource =>
    refine carries_emit hsubjects hpredicates hbelow fun h => (hdue h).imp_right fun hx =>
      hx.imp_left fun hiri => ?_
    rw [resource?_of_iri? hiri] at hresource
    cases hresource
    exact List.mem_singleton_self x
  · exact carries_fail _
  · next hresource =>
    split
    · exact hopen _ rfl rfl
    · exact hopen _ rfl rfl
    · exact hopen _ rfl rfl
    · split
      · refine carries_emit hsubjects hpredicates hbelow fun h => (hdue h).imp_right fun hx =>
          .inr (hx.resolve_left fun hiri => ?_)
        rw [resource?_of_iri? hiri] at hresource
        cases hresource
      · exact carries_fail _

/-- The first item of a collection is the object of a statement of its node. -/
theorem carries_acceptItem (node : Term) (hsubjects : r.subjects = subjects)
    (hpredicates : r.predicates = predicates) (hbelow : Within below subjects predicates awaited)
    (hdue : due → x ∈ awaited ∨ r.iri? t = some (.ok x) ∨ r.Mentions x) :
    Carries x due (r.acceptItem t node below) := by
  subst hsubjects hpredicates
  refine carries_acceptObject (r := (r.pushSubject node).pushPredicate rdfFirst) rfl rfl
    (.collectionEnd hbelow) fun h => (hdue h).imp_left fun hx => ?_
  exact List.mem_append_right _ (List.mem_cons_of_mem _ hx)

/-- After an item the node is linked to what follows, and its subject and predicate are done with. -/
theorem carries_acceptCollectionEnd (hsubjects : r.subjects = subject :: subjects)
    (hpredicates : r.predicates = predicate :: predicates)
    (hbelow : Within below subjects predicates awaited)
    (hdue : due → x ∈ awaited ∨ r.iri? t = some (.ok x) ∨ r.Mentions x) :
    Carries x due (r.acceptCollectionEnd labels t below) := by
  unfold acceptCollectionEnd
  rw [hsubjects]
  dsimp only [List.head?_cons]
  split
  · next ht =>
    subst ht
    refine carries_expect (congrArg List.tail hsubjects) (congrArg List.tail hpredicates) hbelow
      fun h => (hdue h).imp_right fun hx => ?_
    exact (hx.resolve_left nofun).mono ⟨List.suffix_rfl, List.suffix_cons _ _⟩
  · generalize hnext : r.popSubject.popObject.fresh labels = next
    have hitem : Within (.collectionEnd :: below) (next :: r.subjects.tail)
        (predicate :: predicates) awaited := by
      rw [hsubjects]
      exact .collectionEnd hbelow
    refine carries_acceptObject (r := (r.popSubject.popObject.draw.emitRest (some subject)
      next).pushSubject next) rfl hpredicates hitem fun h => ?_
    rcases hdue h with hx | hx | hx
    · exact .inl (List.mem_append_right _ (List.mem_cons_of_mem _ hx))
    · exact .inr (.inl hx)
    · exact .inr (.inr (hx.mono ⟨List.suffix_rfl, List.suffix_cons _ _⟩))

end

end Recognition

/-! ## Taking a token -/

/-- Whether a goal is for a part of a directive. -/
def Goal.isForDirective : Goal → Bool
  | .baseIri | .declaredName | .declaredIri _ => true
  | _ => false

/-- Whether a token that stands for an IRI, met by this goal, makes it a term of a statement. -/
def Goal.isForTerm (x : String) (goal : Goal) : Bool :=
  match goal with
  -- A block may hold no statement.
  | .graphName => false
  -- The datatype of plain strings is not stated.
  | .literalDatatype _ => x ≠ xsdString
  | _ => !goal.isForDirective

namespace Recognition

/-- Whether a token stands for an IRI where it makes the IRI a term of a statement. -/
def IsTerm (x : String) (r : Recognition) (t : Token) (goals : List Goal) : Prop :=
  r.iri? t = some (.ok x) ∧ ∀ goal ∈ goals, goal.isForTerm x

/-- Whether an IRI has to be in a statement by the time that no goal awaits it. -/
def IsDue (x : String) (awaited : List String) (r : Recognition) (t : Token) (goals : List Goal) :
    Prop :=
  x ∈ awaited ∨ IsTerm x r t goals ∨ r.Mentions x

theorem IsTerm.below {x : String} {r : Recognition} {goal : Goal} {below : List Goal}
    (h : IsTerm x r t (goal :: below)) : IsTerm x r t below :=
  ⟨h.1, fun g hg => h.2 g (List.mem_cons_of_mem _ hg)⟩

theorem IsDue.below {x : String} {awaited : List String} {r : Recognition} {goal : Goal}
    {below : List Goal} (h : IsDue x awaited r t (goal :: below)) : IsDue x awaited r t below :=
  h.imp_right (Or.imp_left IsTerm.below)

section

variable {x : String} {r : Recognition} {goals : List Goal}

theorem Carries.imp {due due' : Prop} (h : Carries x due r) (hdue : due' → due) :
    Carries x due' r :=
  h.imp_right fun ⟨awaited, hawaits, hx⟩ => ⟨awaited, hawaits, fun h => hx (hdue h)⟩

/-- Between statements nothing is awaited. -/
theorem carries_between (hgoals : IsBetween r.goals) {due : Prop} (hdue : due → r.Mentions x) :
    Carries x due r :=
  .inr ⟨[], .between hgoals, fun h => .inr (hdue h)⟩

section

variable {awaited : List String}

theorem IsDue.cases (h : IsDue x awaited r t goals) :
    x ∈ awaited ∨ r.iri? t = some (.ok x) ∨ r.Mentions x :=
  h.imp_right (Or.imp_left And.left)

/-- Where the token stands for no IRI, one is due that was. -/
theorem IsDue.of_none (h : IsDue x awaited r t goals) (ht : r.iri? t = none) :
    x ∈ awaited ∨ r.Mentions x :=
  h.cases.imp_right fun hx => hx.resolve_left fun hiri => by rw [ht] at hiri; cases hiri

/-- Where nothing is awaited, an IRI is due that the token stands for. -/
theorem IsDue.of_nil (h : IsDue x [] r t goals) : r.iri? t = some (.ok x) ∨ r.Mentions x :=
  h.cases.resolve_left List.not_mem_nil

theorem IsDue.mentions (h : IsDue x [] r t goals) (ht : r.iri? t = none) : r.Mentions x :=
  (h.of_none ht).resolve_left List.not_mem_nil

end

theorem not_isTerm (ht : r.iri? t = none) : ¬IsTerm x r t goals := by
  rintro ⟨hx, -⟩
  rw [ht] at hx
  cases hx

/-- A token that stands for no IRI leaves nothing to be awaited between statements. -/
theorem carries_of_none {r' : Recognition} (ht : r.iri? t = none) (h : IsBetween r'.goals) :
    Carries x (IsTerm x r t goals) r' :=
  carries_between h fun h => absurd h (not_isTerm ht)

/-- A mark leads on between statements, where anything else is a fault. -/
theorem carries_mark {mark : Mark} {r' : Recognition} {fault : SyntaxFault}
    (h : IsBetween r'.goals) :
    Carries x (IsTerm x r t goals) (if t = .mark mark then r' else r.fail fault) := by
  split
  · next ht => exact carries_of_none (ht ▸ rfl) h
  · exact carries_fail _

/-! ### Between statements -/

/-- What ends a statement is a mark. -/
theorem carries_acceptEnding (h : EndsStatement goals) :
    Carries x (IsDue x [] r t goals) (acceptWith labels t goals r) := by
  cases h with
  | dot =>
    unfold acceptWith
    dsimp only
    split
    · next ht =>
      subst ht
      exact carries_between .document fun h => h.mentions rfl
    · exact carries_of_extends_note (r := r.popSubject) (extends_acceptWith _ _)
  | blockEnd =>
    unfold acceptWith
    dsimp only
    split
    · next ht =>
      subst ht
      exact carries_between .document fun h => h.mentions rfl
    · split
      · next ht =>
        subst ht
        exact carries_between .blockStatement fun h => h.mentions rfl
      · exact carries_of_extends_note (r := r.popSubject) (extends_acceptWith _ _)

/-- The first resource after a statement is its subject or the name of a block. -/
theorem carries_acceptSubjectOrGraph :
    Carries x (IsTerm x r t goals) (r.acceptSubjectOrGraph t [.document])
      ∨ (r.acceptSubjectOrGraph t [.document]).goals
        = [.blockOrPredicates (.iri x), .document] := by
  by_cases hterm : IsTerm x r t goals
  · right
    unfold acceptSubjectOrGraph
    rw [resource?_of_iri? hterm.1]
    rfl
  left
  unfold acceptSubjectOrGraph
  split
  · exact carries_between .blockOrPredicates fun h => absurd h hterm
  · exact carries_fail _
  · split
    · exact carries_between .leadingBracket fun h => absurd h hterm
    · exact carries_expect rfl rfl (.subjectCollection .dot) fun h => absurd h hterm
    · exact carries_fail _

theorem carries_acceptDocument :
    Carries x (IsTerm x r t [.document]) (r.acceptDocument t)
      ∨ (r.acceptDocument t).goals = [.blockOrPredicates (.iri x), .document] := by
  have hresource : Carries x (IsTerm x r t [.document])
      (({ r with graph := none } : Recognition).acceptSubjectOrGraph t [.document])
      ∨ (({ r with graph := none } : Recognition).acceptSubjectOrGraph t [.document]).goals
        = [.blockOrPredicates (.iri x), .document] :=
    carries_acceptSubjectOrGraph
  unfold acceptDocument
  dsimp only
  split
  · exact .inl (carries_of_none rfl .blockStatement)
  · exact .inl (carries_of_none rfl (.declaredName (.ending .dot)))
  · exact .inl (carries_of_none rfl (.baseIri (.ending .dot)))
  · split
    · exact .inl (carries_of_none rfl (.baseIri .document))
    · split
      · exact .inl (carries_of_none rfl (.declaredName .document))
      · split
        · exact .inl (carries_of_none rfl .graphName)
        · exact hresource
  · exact hresource

/-- A subject in a block is awaited, and so is what begins another. -/
theorem carries_blockStatement :
    Carries x (IsTerm x r t [.blockStatement, .blockEnd, .document])
      (acceptWith labels t [.blockStatement, .blockEnd, .document] r) := by
  unfold acceptWith
  dsimp only
  split
  · next resource hresource =>
    refine carries_expect (r := r.pushSubject resource) rfl rfl (.predicates .blockEnd) fun h =>
      .inl ?_
    rw [resource?_of_iri? h.1] at hresource
    cases hresource
    exact List.mem_singleton_self x
  · exact carries_fail _
  · split
    · exact (carries_acceptEnding .blockEnd).imp fun h => .inr (.inl h.below)
    · exact carries_expect (r := r.draw.pushSubject (r.fresh labels)) rfl rfl
        (.bracket .blockEnd (.inl rfl)) fun h => absurd h (not_isTerm rfl)
    · exact carries_expect rfl rfl (.subjectCollection .blockEnd) fun h =>
        absurd h (not_isTerm rfl)
    · exact carries_fail _

/-- A resource that no block follows is a subject. -/
theorem carries_blockOrPredicates {resource : Term} :
    Carries x (IsTerm x r t [.blockOrPredicates resource, .document]
        ∨ resource = .iri x ∧ t ≠ .mark .openBrace)
      (acceptWith labels t [.blockOrPredicates resource, .document] r) := by
  unfold acceptWith
  dsimp only
  split
  · next ht =>
    subst ht
    exact carries_between .blockStatement fun h => (h.elim (not_isTerm rfl) fun h => h.2 rfl).elim
  · refine carries_acceptPredicates (r := r.pushSubject resource) rfl rfl (.ending .dot) fun h => ?_
    rcases h with h | ⟨rfl, -⟩
    · exact .inr (.inl h.1)
    · exact .inl (List.mem_singleton_self x)

/-- A directive states nothing. -/
theorem carries_directive {goal : Goal} {below : List Goal} (h : IsBetween below)
    (hgoal : goal.isForDirective) :
    Carries x (IsTerm x r t (goal :: below)) (acceptWith labels t (goal :: below) r) := by
  have hterm : ¬IsTerm x r t (goal :: below) := by
    rintro ⟨-, hall⟩
    have hfor := hall goal List.mem_cons_self
    cases goal <;> cases hgoal <;> cases hfor
  unfold acceptWith
  cases goal with
  | baseIri | declaredIri =>
    dsimp only
    split
    · exact carries_between h fun h => absurd h hterm
    · exact carries_fail _
  | declaredName =>
    dsimp only
    split
    · exact carries_between (.declaredIri h) fun h => absurd h hterm
    · exact carries_fail _
  | _ => cases hgoal

/-- The name of a block that is announced is no term by that. -/
theorem carries_graphName :
    Carries x (IsTerm x r t [.graphName, .block, .document])
      (acceptWith labels t [.graphName, .block, .document] r) := by
  have hterm : ¬IsTerm x r t [.graphName, .block, .document] := by
    rintro ⟨-, hall⟩
    cases hall .graphName List.mem_cons_self
  unfold acceptWith
  dsimp only
  split
  · exact carries_between .block fun h => absurd h hterm
  · exact carries_fail _
  · split
    · exact carries_between .graphBracketEnd fun h => absurd h hterm
    · exact carries_fail _

/-- Between statements, a token loses no IRI. At the top it may stand for the name of a block. -/
theorem carries_acceptBetween (h : IsBetween goals) :
    Carries x (IsTerm x r t goals
        ∨ goals = [.blockOrPredicates (.iri x), .document] ∧ t ≠ .mark .openBrace)
        (acceptWith labels t goals r)
      ∨ goals = [.document]
        ∧ (acceptWith labels t goals r).goals = [.blockOrPredicates (.iri x), .document] := by
  have hleft : ∀ {goal below}, (goal :: below ≠ [.blockOrPredicates (.iri x), .document]) →
      Carries x (IsTerm x r t (goal :: below)) (acceptWith labels t (goal :: below) r) →
      Carries x (IsTerm x r t (goal :: below)
        ∨ goal :: below = [.blockOrPredicates (.iri x), .document] ∧ t ≠ .mark .openBrace)
        (acceptWith labels t (goal :: below) r) :=
    fun hne h => h.imp fun hdue => hdue.resolve_right fun hopen => hne hopen.1
  cases h with
  | document =>
    unfold acceptWith
    exact carries_acceptDocument.imp
      (fun h => h.imp fun hx => hx.resolve_right fun hx => by cases hx.1) (fun h => ⟨rfl, h⟩)
  | @blockOrPredicates resource =>
    refine .inl (carries_blockOrPredicates.imp fun h => h.imp_right fun h => ⟨?_, h.2⟩)
    cases h.1
    rfl
  | baseIri h | declaredName h | declaredIri h =>
    exact .inl (hleft (by simp) (carries_directive h rfl))
  | leadingBracket =>
    refine .inl (hleft (by simp) ?_)
    unfold acceptWith
    dsimp only
    split
    · next ht =>
      subst ht
      exact carries_of_none rfl .blockOrPredicates
    · exact carries_acceptPredicates (r := r.draw.pushSubject (r.fresh labels)) rfl rfl
        (.bracket .dot (.inr (.inl rfl))) fun h => .inr (.inl h.1)
  | graphName => exact .inl (hleft (by simp) carries_graphName)
  | graphBracketEnd =>
    refine .inl (hleft (by simp) ?_)
    unfold acceptWith
    exact carries_mark .block
  | block =>
    refine .inl (hleft (by simp) ?_)
    unfold acceptWith
    exact carries_mark .blockStatement
  | blockStatement => exact .inl (hleft (by simp) carries_blockStatement)
  | ending h =>
    have hending : Carries x (IsTerm x r t goals) (acceptWith labels t goals r) :=
      (carries_acceptEnding h).imp fun h => .inr (.inl h)
    cases h with
    | dot | blockEnd => exact .inl (hleft (by simp) hending)

end

/-! ### Within a statement -/

/-- A token for an object, or for the rest of one, with what is known of the goals below. -/
theorem carries_acceptForObject {x : String} {goal : Goal} {below : List Goal} {subject : Term}
    {subjects : List Term} {predicate : String} {predicates awaited : List String}
    (hgoal : goal.isForObject)
    {r : Recognition} (hsubjects : r.subjects = subject :: subjects)
    (hpredicates : r.predicates = predicate :: predicates)
    (hbelow : Within below (subject :: subjects) (predicate :: predicates) awaited)
    (ih : ∀ {r : Recognition}, r.subjects = subject :: subjects →
      r.predicates = predicate :: predicates →
      Carries x (IsDue x awaited r t below) (acceptWith labels t below r)) :
    Carries x (IsDue x (subject.iri?.toList ++ predicate :: awaited) r t (goal :: below))
      (acceptWith labels t (goal :: below) r) := by
  have hemit : ∀ {r : Recognition} {object : Term}, r.subjects = subject :: subjects →
      r.predicates = predicate :: predicates →
      x ∈ subject.iri?.toList ++ predicate :: awaited → x ∈ awaited ∨ (r.emit object).Mentions x := by
    intro r object hs hp hx
    rcases List.mem_append.1 hx with hx | hx
    · exact .inr (mentions_emit hs hp (.inl hx))
    · exact (List.mem_cons.1 hx).symm.imp_right fun hx => mentions_emit hs hp (.inr (.inl hx))
  unfold acceptWith
  cases goal with
  | objects => exact carries_acceptObject hsubjects hpredicates (.objectsEnd hbelow) IsDue.cases
  | object => exact carries_acceptObject hsubjects hpredicates hbelow IsDue.cases
  | objectBracket =>
    dsimp only
    split
    · next ht =>
      subst ht
      exact carries_emit (r := r.draw) hsubjects hpredicates hbelow fun h =>
        (h.of_none rfl).imp_right .inr
    · exact carries_acceptPredicates (r := r.draw.pushSubject (r.fresh labels))
        (congrArg _ hsubjects) hpredicates (.objectBracketEnd hbelow) IsDue.cases
  | objectCollection =>
    dsimp only
    split
    · next ht =>
      subst ht
      exact carries_emit hsubjects hpredicates hbelow fun h => (h.of_none rfl).imp_right .inr
    · generalize r.fresh labels = node
      refine carries_acceptItem (r := r.draw.emit node) node
        ((subjects_emit (r := r.draw) node).trans hsubjects)
        ((predicates_emit (r := r.draw) node).trans hpredicates) hbelow fun h => ?_
      rcases h.cases with hx | hx | hx
      · exact (hemit (r := r.draw) hsubjects hpredicates hx).imp_right .inr
      · exact .inr (.inl ((iri?_emit (r := r.draw) node t).trans hx))
      · exact .inr (.inr (hx.mono (extends_emit r.draw node)))
  | literalTag value =>
    dsimp only
    split
    · exact carries_emit hsubjects hpredicates hbelow fun h => (h.of_none rfl).imp_right .inr
    · exact carries_expect hsubjects hpredicates (.object rfl hbelow) fun h => h.of_none rfl
    · -- The literal ended before the token, which goes on to the goals below.
      refine (ih ((subjects_emit _).trans hsubjects) ((predicates_emit _).trans hpredicates)).imp
        fun h => ?_
      rcases h.below with hx | ⟨hx, hall⟩ | hx
      · exact (hemit hsubjects hpredicates hx).imp_right .inr
      · exact .inr (.inl ⟨(iri?_emit _ t).trans hx, hall⟩)
      · exact .inr (.inr (hx.mono (extends_emit r _)))
  | literalDatatype value =>
    dsimp only
    split
    · next iri hiri =>
      refine carries_emit hsubjects hpredicates hbelow fun h => ?_
      rcases h with hx | ⟨hx, hall⟩ | hx
      · exact .inl hx
      · rw [hiri] at hx
        cases hx
        have hproper : x ≠ xsdString := by
          simpa [Goal.isForTerm] using hall _ List.mem_cons_self
        exact .inr (.inl (by simp [Literal.ofDatatype, hproper, Term.mentioned?, Literal.datatype?]))
      · exact .inr (.inr hx)
    · exact carries_fail _
    · exact .inl fun hnone => List.cons_ne_nil _ _
        (List.suffix_nil.1 (hnone ▸ (extends_recover (r.fail .notDatatype)).1))
  | _ => cases hgoal

/-- A token that comes to these goals loses no IRI. -/
theorem carries_acceptWith {x : String} {goals : List Goal} {subjects : List Term}
    {predicates awaited : List String} (h : Within goals subjects predicates awaited)
    {r : Recognition} (hsubjects : r.subjects = subjects) (hpredicates : r.predicates = predicates) :
    Carries x (IsDue x awaited r t goals) (acceptWith labels t goals r) := by
  -- A token that a goal has no use for goes on to the goals below, which await no more than they did.
  induction h generalizing r with
  | ending h => exact carries_acceptEnding h
  | @subjectCollection goals subjects predicates h =>
    unfold acceptWith
    dsimp only
    split
    · next ht =>
      subst ht
      exact carries_expect (r := r.pushSubject rdfNil) rfl rfl (.predicates h) fun h =>
        .inr (h.mentions rfl)
    · generalize r.fresh labels = node
      refine carries_acceptItem (r := r.draw.pushSubject node) node rfl rfl (.predicates h)
        fun h => .inr h.of_nil
  | bracket h hgoal =>
    rcases hgoal with rfl | rfl | rfl
    · unfold acceptWith
      dsimp only
      split
      · next ht =>
        subst ht
        exact carries_expect hsubjects hpredicates (.predicates h) fun h => .inr (h.mentions rfl)
      · exact carries_acceptPredicates hsubjects hpredicates (.bracket h (.inr (.inl rfl)))
          fun h => .inr h.of_nil
    · unfold acceptWith
      dsimp only
      split
      · next ht =>
        subst ht
        exact carries_expect hsubjects hpredicates (.bracket h (.inr (.inr rfl))) fun h =>
          .inr (h.mentions rfl)
      · split
        · exact carries_of_extends_note (extends_acceptWith _ _)
        · exact carries_of_extends_note (extends_acceptPredicates _ _)
    · unfold acceptWith
      dsimp only
      split
      · exact (carries_acceptEnding h).imp IsDue.below
      · exact carries_acceptPredicates hsubjects hpredicates (.ending h)
          fun h => .inr h.of_nil
  | predicates h =>
    unfold acceptWith
    dsimp only
    refine carries_acceptPredicates hsubjects hpredicates (.ending h) fun h => ?_
    rw [List.append_nil]
    exact h.cases
  | @predicatesEnd below subject subjects predicate predicates awaited h ih =>
    have hpopped : r.popPredicate.predicates = predicates := congrArg List.tail hpredicates
    unfold acceptWith
    dsimp only
    split
    · next ht =>
      subst ht
      exact carries_expect (r := r.popPredicate) hsubjects hpopped (.morePredicates h) fun h =>
        h.of_none rfl
    · exact (ih (r := r.popPredicate) hsubjects hpopped).imp IsDue.below
  | @morePredicates below subject subjects predicates awaited h ih =>
    unfold acceptWith
    dsimp only
    split
    · next ht =>
      subst ht
      exact carries_expect hsubjects hpredicates (.morePredicates h) fun h => h.of_none rfl
    · split
      · exact (ih hsubjects hpredicates).imp IsDue.below
      · exact carries_acceptPredicates hsubjects hpredicates h fun h =>
          h.cases.imp_left (List.mem_append_right _)
  | @object goal below subject subjects predicate predicates awaited hgoal h ih =>
    exact carries_acceptForObject hgoal hsubjects hpredicates h ih
  | @objectsEnd below subject subjects predicate predicates awaited h ih =>
    unfold acceptWith
    dsimp only
    split
    · next ht =>
      subst ht
      exact carries_expect (r := r.popObject) hsubjects hpredicates (.object rfl (.objectsEnd h))
        fun h => (h.of_none rfl).imp_left fun hx =>
          List.mem_append_right _ (List.mem_cons_of_mem _ hx)
    · exact (ih (r := r.popObject) hsubjects hpredicates).imp IsDue.below
  | @objectBracketEnd below node subject subjects predicate predicates awaited h ih =>
    unfold acceptWith
    rw [hsubjects]
    dsimp only [List.head?_cons]
    split
    · next ht =>
      subst ht
      have hpopped : r.popSubject.subjects = subject :: subjects := congrArg List.tail hsubjects
      exact carries_emit (r := r.popSubject) hpopped hpredicates h fun h =>
        (h.of_none rfl).imp_right .inr
    · exact carries_fail _
  | collectionEnd h ih =>
    unfold acceptWith
    exact carries_acceptCollectionEnd hsubjects hpredicates h IsDue.cases

/-- Whether an IRI has to be awaited or mentioned after a token: it was awaited before, the token
stands for it as a term, or it was read as the first resource and the token does not open a block. -/
def Owes (r : Recognition) (awaited : List String) (t : Token) (x : String) : Prop :=
  x ∈ awaited ∨ IsTerm x r t r.goals
    ∨ r.goals = [.blockOrPredicates (.iri x), .document] ∧ t ≠ .mark .openBrace

/-- A token loses no IRI, but at the top it may stand for the name of a block. -/
theorem carries_accept {x : String} {awaited : List String} {r : Recognition}
    (h : r.IsAwaiting awaited) :
    Carries x (r.Owes awaited t x) (r.accept labels t)
      ∨ r.goals = [.document]
        ∧ (r.accept labels t).goals = [.blockOrPredicates (.iri x), .document] := by
  unfold IsAwaiting at h
  unfold accept Owes
  generalize r.goals = goals at h
  generalize hsubjects : r.subjects = subjects at h
  generalize hpredicates : r.predicates = predicates at h
  cases h with
  | between h =>
    exact (carries_acceptBetween h).imp_left fun h => h.imp fun hdue =>
      hdue.resolve_left List.not_mem_nil
  | within h =>
    have hne : goals ≠ [.blockOrPredicates (.iri x), .document] := by
      rintro rfl
      cases h.endsStatement
    exact .inl ((carries_acceptWith h hsubjects hpredicates).imp fun hdue =>
      hdue.imp_right fun hdue => .inl (hdue.resolve_right fun hopen => hne hopen.1))

/-- A document that ends without a fault leaves nothing awaited. -/
theorem eq_nil_of_close {awaited : List String} {r : Recognition} (h : r.IsAwaiting awaited)
    (hclean : r.close.faults = []) : awaited = [] := by
  have hshort : r.goals.length < 2 → awaited = [] := by
    intro hlt
    cases h with
    | between h => rfl
    | within h => exact absurd h.two_le_length (by omega)
  unfold close at hclean
  split at hclean
  · next hgoals => exact hshort (by simp [hgoals])
  · next hgoals => exact hshort (by simp [hgoals])
  · cases hclean
  · cases hclean

end Recognition

end Trig
end TidyTrig
