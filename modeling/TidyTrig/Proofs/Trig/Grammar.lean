import TidyTrig.Trig.Recognition

/-!
# Where prefixes are declared

A prefix is declared by three tokens in a row: a keyword, a name without a local part and an IRI.
`goes_accept`, `accept_declaredName` and `accept_declaredIri` say what a token can do that is no
fault: where no declaration is begun, it begins one or the declarations stay as they are, and where
one is begun, it is its next part.
-/

namespace TidyTrig.Trig

/-! ## Goals and tokens -/

/-- Whether a goal awaits a part of a declaration, after its keyword. -/
def Goal.isDeclaring : Goal → Bool
  | .declaredName | .declaredIri _ => true
  | _ => false

/-- Goals where no declaration is begun. The document is expected to go on after all of them. -/
def IsOrdinary (goals : List Goal) : Prop :=
  goals.getLast? = some .document ∧ ∀ goal ∈ goals, goal.isDeclaring = false

theorem isOrdinary_document : IsOrdinary [.document] :=
  ⟨rfl, fun _ h => List.mem_singleton.1 h ▸ rfl⟩

theorem IsOrdinary.cons {goal : Goal} {below : List Goal} (h : IsOrdinary below)
    (hgoal : goal.isDeclaring = false) : IsOrdinary (goal :: below) :=
  ⟨by rw [List.getLast?_cons, h.1]; rfl, List.forall_mem_cons.2 ⟨hgoal, h.2⟩⟩

/-- Goals below which the document is not expected are never come to. -/
theorem IsOrdinary.below {goal : Goal} {below : List Goal} (h : IsOrdinary (goal :: below))
    (hgoal : goal ≠ .document) : IsOrdinary below := by
  refine ⟨?_, fun g hg => h.2 g (List.mem_cons_of_mem _ hg)⟩
  have hlast := h.1
  cases below with
  | nil => exact absurd (Option.some.inj hlast) hgoal
  | cons g below => rwa [List.getLast?_cons_cons] at hlast

theorem IsOrdinary.head? {goals : List Goal} (h : IsOrdinary goals) :
    ∀ goal ∈ goals.head?, goal.isDeclaring = false :=
  fun goal hgoal => h.2 goal (List.mem_of_head? hgoal)

/-- Whether a token is the keyword of a declaration, which is in any case if it has no `@`. -/
def Token.declares : Token → Bool
  | .language tag => tag = "prefix"
  | .keyword word => lowercase word = "prefix"
  | _ => false

/-- Whether there is a use for a token but to declare a prefix. -/
def Token.isUsed : Token → Bool
  | .variable _ | .mark .less2 => false
  | .keyword word =>
    word = "a" || word = "true" || word = "false" || lowercase word = "base"
      || lowercase word = "graph"
  | _ => true

namespace Recognition

variable {labels : Nat → String} {t : Token} {r r' r'' : Recognition} {below : List Goal}

theorem isUsed_of_iri? {result : Except SyntaxFault String} (h : r.iri? t = some result) :
    t.isUsed := by
  cases t <;> first | rfl | cases h

theorem isUsed_of_resource? {result : Except SyntaxFault Term} (h : r.resource? t = some result) :
    t.isUsed := by
  cases t <;> first | rfl | cases h

theorem isUsed_of_plainLiteral? {literal : Literal} (h : plainLiteral? t = some literal) :
    t.isUsed := by
  cases t with
  | keyword word =>
    unfold plainLiteral? at h
    dsimp only at h
    split at h
    · next hword =>
      rw [Bool.or_eq_true, decide_eq_true_eq, decide_eq_true_eq] at hword
      rcases hword with rfl | rfl <;> rfl
    · cases h
  | integer | decimal | double => rfl
  | _ => cases h

theorem spaces_emit (object : Term) : (r.emit object).spaces = r.spaces := by
  unfold emit
  dsimp only
  split <;> rfl

theorem spaces_emitRest (node : Option Term) (rest : Term) :
    (r.emitRest node rest).spaces = r.spaces := by
  cases node <;> rfl

/-! ## One token where no declaration is begun -/

/-- What comes of a token: the declarations stay, and if there is no fault, there is a use for the
token, or it begins a declaration. -/
structure Goes (t : Token) (r r' : Recognition) : Prop where
  spaces : r'.spaces = r.spaces
  cases : r'.faults = [] →
    (t.isUsed ∧ IsOrdinary r'.goals)
      ∨ (t.declares ∧ ∃ below, r'.goals = .declaredName :: below ∧ IsOrdinary below)

/-- What is done before to other fields than the declarations makes no difference. -/
theorem Goes.of_spaces (h : Goes t r' r'') (hspaces : r'.spaces = r.spaces) : Goes t r r'' :=
  ⟨h.spaces.trans hspaces, h.cases⟩

theorem goes_fail (fault : SyntaxFault) : Goes t r (r.fail fault) :=
  ⟨rfl, fun h => absurd h (List.cons_ne_nil _ _)⟩

theorem goes_expect {goals : List Goal} (hspaces : r'.spaces = r.spaces) (ht : t.isUsed)
    (h : IsOrdinary goals) : Goes t r (r'.expect goals) :=
  ⟨hspaces, fun _ => .inl ⟨ht, h⟩⟩

/-- Behind a mark that is expected. -/
theorem goes_mark {mark : Mark} {goals : List Goal} (hmark : mark ≠ .less2) (ht : t = .mark mark)
    (hspaces : r'.spaces = r.spaces) (h : IsOrdinary goals) : Goes t r (r'.expect goals) := by
  refine goes_expect hspaces ?_ h
  rw [ht]
  cases mark <;> first | rfl | exact absurd rfl hmark

theorem goes_acceptVerb (h : IsOrdinary below) : Goes t r (r.acceptVerb t below) := by
  unfold acceptVerb
  split
  · exact goes_expect rfl rfl h
  · split
    · next hiri => exact goes_expect rfl (isUsed_of_iri? hiri) h
    · exact goes_fail _
    · exact goes_fail _

theorem goes_acceptPredicates (h : IsOrdinary below) : Goes t r (r.acceptPredicates t below) :=
  goes_acceptVerb ((h.cons rfl).cons rfl)

theorem goes_acceptObject (h : IsOrdinary below) : Goes t r (r.acceptObject t below) := by
  unfold acceptObject
  split
  · next hresource => exact goes_expect (spaces_emit _) (isUsed_of_resource? hresource) h
  · exact goes_fail _
  · split
    · exact goes_expect rfl rfl (h.cons rfl)
    · exact goes_expect rfl rfl (h.cons rfl)
    · exact goes_expect rfl rfl (h.cons rfl)
    · split
      · next hliteral => exact goes_expect (spaces_emit _) (isUsed_of_plainLiteral? hliteral) h
      · exact goes_fail _

theorem goes_acceptItem (node : Term) (h : IsOrdinary below) :
    Goes t r (r.acceptItem t node below) :=
  (goes_acceptObject (h.cons rfl)).of_spaces rfl

theorem goes_acceptCollectionEnd (h : IsOrdinary below) :
    Goes t r (r.acceptCollectionEnd labels t below) := by
  unfold acceptCollectionEnd
  dsimp only
  split
  · next ht => exact goes_mark (by decide) ht (spaces_emitRest _ _) h
  · exact (goes_acceptObject (h.cons rfl)).of_spaces (spaces_emitRest _ _)

theorem goes_acceptSubjectOrGraph (h : IsOrdinary below) :
    Goes t r (r.acceptSubjectOrGraph t below) := by
  unfold acceptSubjectOrGraph
  split
  · next hresource => exact goes_expect rfl (isUsed_of_resource? hresource) (h.cons rfl)
  · exact goes_fail _
  · split
    · exact goes_expect rfl rfl (h.cons rfl)
    · exact goes_expect rfl rfl (((h.cons rfl).cons rfl).cons rfl)
    · exact goes_fail _

/-- Only between statements a declaration begins. -/
theorem goes_acceptDocument : Goes t r (r.acceptDocument t) := by
  have h := isOrdinary_document
  have hgraph : ∀ t, Goes t r (({ r with graph := none } : Recognition).acceptSubjectOrGraph t
      [.document]) := fun t => (goes_acceptSubjectOrGraph h).of_spaces rfl
  unfold acceptDocument
  dsimp only
  split
  · exact goes_expect rfl rfl ((h.cons rfl).cons rfl)
  · exact ⟨rfl, fun _ => .inr ⟨rfl, _, rfl, h.cons rfl⟩⟩
  · exact goes_expect rfl rfl ((h.cons rfl).cons rfl)
  · next word =>
    split
    · next hword => exact goes_expect rfl (by simp [Token.isUsed, hword]) (h.cons rfl)
    · split
      · next hword => exact ⟨rfl, fun _ => .inr ⟨by simp [Token.declares, hword], _, rfl, h⟩⟩
      · split
        · next hword =>
          exact goes_expect rfl (by simp [Token.isUsed, hword]) ((h.cons rfl).cons rfl)
        · exact hgraph _
  · exact hgraph _

theorem spaces_recover : (r.recover t).spaces = r.spaces := by
  unfold recover
  split <;> rfl

theorem faults_recover : (r.recover t).faults = r.faults := by
  unfold recover
  split <;> rfl

/-- Where no declaration is begun, the declarations stay. -/
theorem goes_acceptWith {goals : List Goal} (h : IsOrdinary goals) :
    Goes t r (acceptWith labels t goals r) := by
  -- What a goal has no use for goes on to the goals below.
  induction goals generalizing r with
  | nil => cases h.1
  | cons goal below ih =>
    unfold acceptWith
    cases goal with
    | document => exact goes_acceptDocument
    | dot =>
      have hbelow := h.below nofun
      dsimp only
      split
      · next ht => exact goes_mark (by decide) ht rfl hbelow
      · exact (ih hbelow).of_spaces rfl
    | baseIri =>
      dsimp only
      split
      · exact goes_expect rfl rfl (h.below nofun)
      · exact goes_fail _
    | declaredName | declaredIri => cases h.2 _ List.mem_cons_self
    | subjectOrGraph => exact goes_acceptSubjectOrGraph (h.below nofun)
    | blockOrPredicates resource =>
      have hbelow := h.below nofun
      dsimp only
      split
      · next ht => exact goes_mark (by decide) ht rfl ((hbelow.cons rfl).cons rfl)
      · exact (goes_acceptPredicates (hbelow.cons rfl)).of_spaces rfl
    | leadingBracket =>
      have hbelow := h.below nofun
      dsimp only
      split
      · next ht => exact goes_mark (by decide) ht rfl (hbelow.cons rfl)
      · exact (goes_acceptPredicates ((hbelow.cons rfl).cons rfl)).of_spaces rfl
    | subjectBracketEnd =>
      have hbelow := h.below nofun
      dsimp only
      split
      · next ht => exact goes_mark (by decide) ht rfl (hbelow.cons rfl)
      · split
        · exact (ih hbelow).of_spaces rfl
        · exact (goes_acceptPredicates hbelow).of_spaces rfl
    | optionalPredicates =>
      have hbelow := h.below nofun
      dsimp only
      split
      · exact ih hbelow
      · exact goes_acceptPredicates hbelow
    | subjectCollection =>
      have hbelow := h.below nofun
      dsimp only
      split
      · next ht => exact goes_mark (by decide) ht rfl hbelow
      · exact (goes_acceptItem _ hbelow).of_spaces rfl
    | collectionEnd => exact goes_acceptCollectionEnd (h.below nofun)
    | block =>
      dsimp only
      split
      · next ht => exact goes_mark (by decide) ht rfl (((h.below nofun).cons rfl).cons rfl)
      · exact goes_fail _
    | blockEnd =>
      have hbelow := h.below nofun
      dsimp only
      split
      · next ht => exact goes_mark (by decide) ht rfl hbelow
      · split
        · next ht => exact goes_mark (by decide) ht rfl ((hbelow.cons rfl).cons rfl)
        · exact (ih hbelow).of_spaces rfl
    | blockStatement =>
      have hbelow := h.below nofun
      dsimp only
      split
      · next hresource => exact goes_expect rfl (isUsed_of_resource? hresource) (hbelow.cons rfl)
      · exact goes_fail _
      · split
        · exact ih hbelow
        · exact goes_expect rfl rfl (hbelow.cons rfl)
        · exact goes_expect rfl rfl ((hbelow.cons rfl).cons rfl)
        · exact goes_fail _
    | blockBracket =>
      have hbelow := h.below nofun
      dsimp only
      split
      · next ht => exact goes_mark (by decide) ht rfl (hbelow.cons rfl)
      · exact goes_acceptPredicates (hbelow.cons rfl)
    | graphName =>
      have hbelow := h.below nofun
      dsimp only
      split
      · next hresource => exact goes_expect rfl (isUsed_of_resource? hresource) hbelow
      · exact goes_fail _
      · split
        · exact goes_expect rfl rfl (hbelow.cons rfl)
        · exact goes_fail _
    | graphBracketEnd =>
      dsimp only
      split
      · next ht => exact goes_mark (by decide) ht rfl (h.below nofun)
      · exact goes_fail _
    | predicates => exact goes_acceptPredicates (h.below nofun)
    | predicatesEnd =>
      have hbelow := h.below nofun
      dsimp only
      split
      · next ht => exact goes_mark (by decide) ht rfl (hbelow.cons rfl)
      · exact (ih hbelow).of_spaces rfl
    | morePredicates =>
      have hbelow := h.below nofun
      dsimp only
      split
      · next ht => exact goes_mark (by decide) ht rfl (hbelow.cons rfl)
      · split
        · exact ih hbelow
        · exact goes_acceptPredicates hbelow
    | verb => exact goes_acceptVerb (h.below nofun)
    | objects => exact goes_acceptObject ((h.below nofun).cons rfl)
    | objectsEnd =>
      have hbelow := h.below nofun
      dsimp only
      split
      · next ht => exact goes_mark (by decide) ht rfl ((hbelow.cons rfl).cons rfl)
      · exact (ih hbelow).of_spaces rfl
    | object => exact goes_acceptObject (h.below nofun)
    | objectBracket =>
      have hbelow := h.below nofun
      dsimp only
      split
      · next ht => exact goes_mark (by decide) ht (spaces_emit _) hbelow
      · exact (goes_acceptPredicates (hbelow.cons rfl)).of_spaces rfl
    | objectBracketEnd =>
      have hbelow := h.below nofun
      dsimp only
      split
      · next ht =>
        split
        · exact goes_mark (by decide) ht (spaces_emit _) hbelow
        · exact goes_mark (by decide) ht rfl hbelow
      · exact goes_fail _
    | objectCollection =>
      have hbelow := h.below nofun
      dsimp only
      split
      · next ht => exact goes_mark (by decide) ht (spaces_emit _) hbelow
      · exact (goes_acceptItem _ hbelow).of_spaces (spaces_emit _)
    | literalTag value =>
      have hbelow := h.below nofun
      dsimp only
      split
      · exact goes_expect (spaces_emit _) rfl hbelow
      · exact goes_expect rfl rfl (hbelow.cons rfl)
      · exact (ih hbelow).of_spaces (spaces_emit _)
    | literalDatatype value =>
      dsimp only
      split
      · next hiri => exact goes_expect (spaces_emit _) (isUsed_of_iri? hiri) (h.below nofun)
      · exact goes_fail _
      · refine ⟨spaces_recover, fun hfaults => ?_⟩
        rw [faults_recover] at hfaults
        cases hfaults

theorem goes_accept (h : IsOrdinary r.goals) : Goes t r (r.accept labels t) := goes_acceptWith h

/-! ## One token where a declaration is begun -/

/-- After the keyword comes a name without a local part. -/
theorem accept_declaredName (hgoals : r.goals = .declaredName :: below)
    (hclean : (r.accept labels t).faults = []) :
    ∃ space isDoubtful, t = .name space "" isDoubtful
      ∧ r.accept labels t = r.expect (.declaredIri space :: below) := by
  unfold accept at hclean ⊢
  rw [hgoals] at hclean ⊢
  unfold acceptWith at hclean ⊢
  dsimp only at hclean ⊢
  split at hclean
  · exact ⟨_, _, rfl, rfl⟩
  · cases hclean

/-- After the name comes an IRI, and with it the declaration is made. -/
theorem accept_declaredIri {space : String} (hgoals : r.goals = .declaredIri space :: below)
    (hclean : (r.accept labels t).faults = []) :
    ∃ iri, t = .iri iri ∧ r.accept labels t = (r.declare space iri).expect below := by
  unfold accept at hclean ⊢
  rw [hgoals] at hclean ⊢
  unfold acceptWith at hclean ⊢
  dsimp only at hclean ⊢
  split at hclean
  · exact ⟨_, rfl, rfl⟩
  · cases hclean

/-- A document does not end within a declaration. -/
theorem faults_close_of_isDeclaring {goal : Goal} (hgoals : r.goals = goal :: below)
    (hgoal : goal.isDeclaring) : r.close.faults ≠ [] := by
  unfold close
  split
  · next hnil => cases hgoals.symm.trans hnil
  · next hdocument =>
    cases hgoals.symm.trans hdocument
    cases hgoal
  · next hliteral =>
    cases hgoals.symm.trans hliteral
    cases hgoal
  · exact List.cons_ne_nil _ _

end Recognition

end TidyTrig.Trig
