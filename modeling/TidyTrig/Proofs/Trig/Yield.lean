import TidyTrig.Proofs.Events
import TidyTrig.Proofs.LanguageTag
import TidyTrig.Proofs.Trig.Terms
import TidyTrig.Trig.Parser

/-!
# What a parser yields

Apart from their IRIs, the terms that a parser yields can all be spelled: its labels come from the
document or from the supply, and its tags are in lower case. `isWellFormed` says so of tokens and
terms. It is kept by every token that a recognition takes, and so by a whole run.
-/

namespace TidyTrig

open Utf8

/-! ## Well-formed terms -/

/-- Whether a term could be spelled if its IRIs could. -/
def Term.isWellFormed : Term → Bool
  | .iri _ => true
  | .blank label => Trig.isLabel label.toList
  | .literal (.tagged _ language) => LanguageTag.isTag language
  | .literal _ => true

/-- Whether a term can be described, and could be spelled if its IRIs could. -/
def Term.isNode (t : Term) : Bool := t.isResource && t.isWellFormed

/-- Whether a statement could be spelled if its IRIs could. -/
def Statement.isWellFormed (s : Statement) : Bool :=
  s.misfit?.isNone && s.terms.all Term.isWellFormed

/-- Valid IRIs are all that a well-formed term lacks. -/
theorem Term.isSpellable_of_isWellFormed {t : Term} (h : t.isWellFormed)
    (hiri : ∀ iri ∈ t.mentioned?, isIri iri) : t.isSpellable := by
  cases t with
  | iri text => exact hiri text rfl
  | blank label => exact h
  | literal value =>
    cases value with
    | simple lexical => rfl
    | tagged lexical language => exact h
    | typed lexical datatype hproper => exact hiri datatype rfl

theorem Statement.isSpellable_of_isWellFormed {s : Statement} (h : s.isWellFormed)
    (hiris : ∀ iri ∈ s.iris, isIri iri) : s.isSpellable := by
  rw [isWellFormed, Bool.and_eq_true] at h
  rw [isSpellable, Bool.and_eq_true]
  refine ⟨h.1, ?_⟩
  apply List.all_eq_true.2
  intro t ht
  apply Term.isSpellable_of_isWellFormed (List.all_eq_true.1 h.2 t ht)
  intro iri hiri
  exact hiris iri (List.mem_filterMap.2 ⟨t, ht, hiri⟩)

/-- A statement of well-formed terms, each in a place for its kind. -/
theorem Statement.isWellFormed_of_isNode {graph : Option Term} {subject object : Term}
    {predicate : String} (hgraph : ∀ g ∈ graph, g.isNode) (hsubject : subject.isNode)
    (hobject : object.isWellFormed) :
    (⟨graph, subject, .iri predicate, object⟩ : Statement).isWellFormed := by
  simp only [Term.isNode, Bool.and_eq_true] at hgraph hsubject
  rw [isWellFormed, Bool.and_eq_true]
  constructor
  · cases graph with
    | none => simp [misfit?, hsubject.1, Term.iri?]
    | some g => simp [misfit?, hsubject.1, Term.iri?, (hgraph g rfl).1]
  · have hterm : (Term.iri predicate).isWellFormed = true := rfl
    cases graph with
    | none => simp [terms, hsubject.2, hobject, hterm]
    | some g => simp [terms, hsubject.2, hobject, (hgraph g rfl).2, hterm]

namespace Trig

/-! ## Tokens -/

/-- Whether what a token stands for could be spelled if its IRIs could. -/
def Token.isWellFormed : Token → Bool
  | .blank label => isLabel label.toList
  | .language tag => LanguageTag.isTag (lowercase tag)
  | _ => true

/-- What is found has the property. -/
def Scan.Yields {α : Type} (p : α → Prop) : Scan α → Prop
  | .found value _ => p value
  | _ => True

theorem isLabelTail_append {afterDot : Bool} {cs more : List Char} (h : isLabelTail afterDot cs)
    (hmore : isLabelTail false more) : isLabelTail afterDot (cs ++ more) := by
  induction cs generalizing afterDot with
  | nil =>
    have hdot : afterDot = false := by simpa [isLabelTail] using h
    rw [hdot]
    exact hmore
  | cons c cs ih =>
    rw [isLabelTail] at h
    rw [List.cons_append, isLabelTail]
    split at h
    · next hc =>
      rw [Bool.and_eq_true] at h
      rw [if_pos hc, h.1, ih h.2]
      rfl
    · next hc =>
      rw [Bool.and_eq_true] at h
      rw [if_neg hc, h.1, ih h.2]
      rfl

/-- A label goes on with what can go on with one. -/
theorem isLabel_append {cs more : List Char} (h : isLabel cs) (hmore : isLabelTail false more) :
    isLabel (cs ++ more) := by
  cases cs with
  | nil => cases h
  | cons c cs =>
    rw [isLabel, Bool.and_eq_true] at h
    rw [List.cons_append, isLabel, h.1, isLabelTail_append h.2 hmore]
    rfl

/-- The label that was read so far, without a dot at its end. -/
def labelRead (read : List Char) : List Char :=
  (read.drop (if read.head? = some '.' then 1 else 0)).reverse

theorem isLabel_labelRead_cons {read : List Char} {c : Char} (hread : isLabel (labelRead read))
    (hc : isNameChar c || (c = '.' && read.head? ≠ some '.')) : isLabel (labelRead (c :: read)) := by
  by_cases hdot : c = '.'
  · subst hdot
    have hname : isNameChar '.' = false := by decide
    have hhead : read.head? ≠ some '.' := by simpa [hname] using hc
    rw [labelRead, if_neg hhead, List.drop_zero] at hread
    exact hread
  · have hname : isNameChar c := by simpa [hdot] using hc
    have hwhole : labelRead (c :: read) = read.reverse ++ [c] := by
      rw [labelRead, List.head?_cons, if_neg (by simpa using hdot), List.drop_zero,
        List.reverse_cons]
    have hlast : isLabelTail false [c] := by simp [isLabelTail, hdot, hname]
    rw [hwhole]
    cases read with
    | nil => cases hread
    | cons d read =>
      by_cases hd : d = '.'
      · subst hd
        have hmore : isLabelTail false ['.', c] := by simp [isLabelTail, hdot, hname]
        have happend := isLabel_append hread hmore
        simp only [labelRead, List.head?_cons, if_true, List.drop_one, List.tail_cons] at happend
        rw [List.reverse_cons, List.append_assoc]
        exact happend
      · rw [labelRead, List.head?_cons, if_neg (by simpa using hd), List.drop_zero] at hread
        exact isLabel_append hread hlast

theorem yields_scanLabel {read : List Char} (hread : read ≠ [] → isLabel (labelRead read))
    (size : Nat) (bytes : Bytes) :
    (scanLabel read size bytes).Yields fun t => t.isWellFormed := by
  fun_induction scanLabel read size bytes with
  | case1 => trivial
  | case2 => trivial
  | case3 => trivial
  | case4 read size b rest c width hnext hempty hc ih =>
    apply ih
    intro _
    have hdot : c ≠ '.' := by
      rintro rfl
      exact absurd hc (by decide)
    have hlabel : labelRead [c] = [c] := by
      rw [labelRead, List.head?_cons, if_neg (by simpa using hdot)]
      rfl
    rw [hlabel, isLabel, hc]
    rfl
  | case5 => trivial
  | case6 read size b rest withoutDot c width hnext hempty hc ih =>
    apply ih
    intro _
    apply isLabel_labelRead_cons (hread (by simpa using hempty))
    simpa [withoutDot] using hc
  | case7 read size b rest withoutDot ended c width hnext hempty hc =>
    have hlabel := hread (by simpa using hempty)
    show isLabel (String.ofList (labelRead read)).toList = true
    rw [String.toList_ofList]
    exact hlabel

/-- A byte that is a letter is all of that letter. -/
theorem encodeChar_ofNat (b : UInt8) (h : (Char.ofNat b.toNat).isAlpha) :
    encodeChar (Char.ofNat b.toNat) = [b] := by
  revert h
  revert b
  apply forall_byte
  decide +kernel

/-- The bytes of a tag are letters and hyphens. -/
theorem exists_chars_of_tagLength? {inEmptyBlock : Bool} {count n : Nat} {bytes : Bytes}
    (h : tagLength? inEmptyBlock count bytes = some n) :
    ∃ cs : List Char, bytes.take (n - count) = cs.flatMap encodeChar
      ∧ cs.all fun c => c.isAlpha || c = '-' := by
  -- One more byte belongs to the tag unless the tag ended before it.
  have hcons : ∀ {count : Nat} {b : UInt8} {rest : Bytes} {c : Char}, encodeChar c = [b] →
      (c.isAlpha || c = '-') →
      (∃ cs : List Char, rest.take (n - (count + 1)) = cs.flatMap encodeChar
        ∧ cs.all fun c => c.isAlpha || c = '-') →
      ∃ cs : List Char, (b :: rest).take (n - count) = cs.flatMap encodeChar
        ∧ cs.all fun c => c.isAlpha || c = '-' := by
    rintro count b rest c hb hc ⟨cs, htake, hall⟩
    by_cases hn : n ≤ count
    · refine ⟨[], ?_, rfl⟩
      rw [Nat.sub_eq_zero_of_le hn]
      rfl
    · refine ⟨c :: cs, ?_, ?_⟩
      · have hsucc : n - count = n - (count + 1) + 1 := by omega
        rw [hsucc, List.take_succ_cons, htake, List.flatMap_cons, hb]
        rfl
      · rw [List.all_cons, hc, hall]
        rfl
  fun_induction tagLength? inEmptyBlock count bytes with
  | case1 => cases h
  | case2 inEmptyBlock count b rest halpha ih =>
    exact hcons (encodeChar_ofNat b halpha) (by simp [halpha]) (ih h)
  | case3 count b rest halpha =>
    refine ⟨[], ?_, rfl⟩
    cases h
    rw [Nat.sub_eq_zero_of_le (Nat.sub_le _ _)]
    rfl
  | case4 inEmptyBlock count rest halpha hblock ih =>
    exact hcons (c := '-') rfl (by decide) (ih h)
  | case5 inEmptyBlock count b rest halpha hblock hb =>
    refine ⟨[], ?_, rfl⟩
    cases h
    rw [Nat.sub_self]
    rfl

/-- A letter or a hyphen is one in lower case too. -/
theorem isLower_toLower {c : Char} (h : c.isAlpha || c = '-') :
    c.toLower.isLower || c.toLower = '-' := by
  have hplain : isPlainNameChar c := by
    rw [Bool.or_eq_true] at h
    rcases h with h | h <;> simp [isPlainNameChar, Char.isAlphanum, h]
  have hall : ∀ n < 0x80, ((Char.ofNat n).isAlpha || Char.ofNat n = '-') →
      (Char.ofNat n).toLower.isLower || (Char.ofNat n).toLower = '-' := by
    decide +kernel
  have hc := hall c.toNat (lt_of_isPlainNameChar hplain)
  rw [Char.ofNat_toNat] at hc
  exact hc h

theorem isTag_lowercase {tag : String} (hchars : tag.toList.all fun c => c.isAlpha || c = '-')
    (hcheck : LanguageTag.check tag = .ok ()) : LanguageTag.isTag (lowercase tag) := by
  have hlower : ∀ c ∈ tag.toList.map Char.toLower, c.isLower || c = '-' := by
    intro c hc
    obtain ⟨d, hd, rfl⟩ := List.mem_map.1 hc
    exact isLower_toLower (List.all_eq_true.1 hchars d hd)
  have htwice : (tag.toList.map Char.toLower).map Char.toLower = tag.toList.map Char.toLower := by
    have hid : (tag.toList.map Char.toLower).map Char.toLower
        = (tag.toList.map Char.toLower).map id := by
      apply List.map_congr_left
      intro c hc
      exact LanguageTag.toLower_of_isLower (hlower c hc)
    rw [hid, List.map_id]
  have hsame : LanguageTag.check (lowercase tag) = LanguageTag.check tag := by
    unfold LanguageTag.check lowercase
    dsimp only
    rw [String.toList_ofList, htwice]
  rw [LanguageTag.isTag, hsame, hcheck, lowercase, String.toList_ofList, List.all_eq_true.2 hlower]
  rfl

theorem yields_scanLanguage (bytes : Bytes) :
    (scanLanguage bytes).Yields fun t => t.isWellFormed := by
  cases bytes with
  | nil => trivial
  | cons b rest =>
    unfold scanLanguage
    dsimp only
    split
    · trivial
    · cases hlength : tagLength? false 0 (b :: rest) with
      | none => trivial
      | some length =>
        obtain ⟨cs, htake, hall⟩ := exists_chars_of_tagLength? hlength
        rw [Nat.sub_zero, ← encode_ofList cs] at htake
        dsimp only
        rw [htake, decodeLossy_encode]
        split
        · next hcheck => exact isTag_lowercase (by rw [String.toList_ofList]; exact hall) hcheck
        · trivial

theorem yields_scanShort (quote : UInt8) (read : List Char) (size : Nat) (bytes : Bytes) :
    (scanShort quote read size bytes).Yields fun t => t.isWellFormed := by
  have hfault : ∀ (cause : Token.Fault) (offset size : Nat) (bytes : Bytes),
      (faultToQuote quote cause offset size bytes).Yields fun t : Token => t.isWellFormed := by
    intro cause offset size bytes
    unfold faultToQuote
    split <;> trivial
  fun_induction scanShort quote read size bytes with
  | case1 => trivial
  | case2 => trivial
  | case3 => trivial
  | case4 => rfl
  | case5 => trivial
  | case6 _ _ _ _ _ _ _ _ _ _ _ _ _ _ _ ih => exact ih
  | case7 => exact hfault _ _ _ _
  | case8 => exact hfault _ _ _ _

theorem yields_scanLong (quote : UInt8) (read : List Char) (size : Nat) (bytes : Bytes) :
    (scanLong quote read size bytes).Yields fun t => t.isWellFormed := by
  fun_induction scanLong quote read size bytes with
  | case1 => trivial
  | case2 => trivial
  | case3 => trivial
  | case4 _ _ _ _ _ _ _ _ _ _ _ _ _ ih => exact ih
  | case5 => trivial
  | case6 => trivial
  | case7 => rfl
  | case8 _ _ _ _ _ _ _ _ _ _ _ _ _ _ ih => exact ih

theorem yields_scanNumber (ended : Bool) (number : Bytes) :
    (scanNumber ended number).Yields fun t => t.isWellFormed := by
  unfold scanNumber closePlain closeDouble
  dsimp only
  repeat' split
  all_goals trivial

theorem yields_scanName (ended : Bool) (read : List Char) (size : Nat) (bytes : Bytes) :
    (scanName ended read size bytes).Yields fun t => t.isWellFormed := by
  have hcolon : ∀ (space : List Char) (size : Nat) (bytes : Bytes),
      (scanAfterColon ended space size bytes).Yields fun t => t.isWellFormed := by
    intro space size bytes
    unfold scanAfterColon
    repeat' split
    all_goals trivial
  fun_induction scanName ended read size bytes with
  | case1 => rfl
  | case2 => trivial
  | case3 => trivial
  | case4 => trivial
  | case5 => rfl
  | case6 => trivial
  | case7 => exact hcolon _ _ _
  | case8 _ _ _ _ _ _ _ _ _ _ ih => exact ih
  | case9 => trivial
  | case10 _ _ _ _ _ _ _ _ _ _ ih => exact ih
  | case11 => rfl

theorem yields_scanAngle (base : Option Iri) (bytes : Bytes) :
    (scanAngle base bytes).Yields fun t => t.isWellFormed := by
  unfold scanAngle scanIri
  dsimp only
  repeat' split
  all_goals trivial

theorem yields_scanUnderscore (bytes : Bytes) :
    (scanUnderscore bytes).Yields fun t => t.isWellFormed := by
  unfold scanUnderscore
  split
  · trivial
  · split
    · exact yields_scanLabel (fun h => absurd rfl h) _ _
    · trivial

theorem yields_scanString (quote : UInt8) (bytes : Bytes) :
    (scanString quote bytes).Yields fun t => t.isWellFormed := by
  unfold scanString
  split
  · trivial
  · split
    · split
      · trivial
      · split
        · exact yields_scanLong quote [] 3 _
        · exact yields_scanShort quote [] 1 _
    · exact yields_scanShort quote [] 1 _

theorem yields_scanDot (ended : Bool) (bytes : Bytes) :
    (scanDot ended bytes).Yields fun t => t.isWellFormed := by
  unfold scanDot
  split
  · split <;> trivial
  · split
    · exact yields_scanNumber ended _
    · rfl

theorem yields_scanVariable (ended : Bool) (bytes : Bytes) :
    (scanVariable ended bytes).Yields fun t => t.isWellFormed := by
  unfold scanVariable
  repeat' split
  all_goals trivial

/-- Every token is well formed. -/
theorem isWellFormed_of_scan {base : Option Iri} {ended : Bool} {b : UInt8} {rest : Bytes}
    {t : Token} {size : Nat} (h : scan base ended b rest = .found t size) : t.isWellFormed := by
  have hyields : (scan base ended b rest).Yields fun t => t.isWellFormed := by
    unfold scan
    split
    · rfl
    · split
      · unfold scanMark
        split
        · trivial
        · split <;> rfl
      · split
        · exact yields_scanAngle base rest
        · split
          · exact yields_scanUnderscore rest
          · split
            · exact yields_scanString b rest
            · split
              · exact yields_scanLanguage rest
              · split
                · exact yields_scanDot ended rest
                · split
                  · exact yields_scanNumber ended (b :: rest)
                  · split
                    · exact yields_scanVariable ended rest
                    · exact yields_scanName ended [] 0 (b :: rest)
  rw [h] at hyields
  exact hyields

/-! ## A token at a time -/

/-- Whether the resource that a goal remembers can be described. -/
def Goal.isWellFormed : Goal → Bool
  | .blockOrPredicates resource => resource.isNode
  | _ => true

namespace Recognition

/-- What is open and what was completed is well formed. -/
structure IsWellFormed (r : Recognition) : Prop where
  goals : ∀ goal ∈ r.goals, goal.isWellFormed
  subjects : ∀ t ∈ r.subjects, t.isNode
  graph : ∀ t ∈ r.graph, t.isNode
  statements : ∀ s ∈ r.statements, s.isWellFormed

theorem isWellFormed_start (base : Option Iri) : (start base).IsWellFormed where
  goals := by
    intro goal hgoal
    rw [List.mem_singleton.1 hgoal]
    rfl
  subjects := fun _ ht => absurd ht List.not_mem_nil
  graph := fun _ ht => absurd ht (Option.not_mem_none _)
  statements := fun _ hs => absurd hs List.not_mem_nil

section

variable {r : Recognition} {labels : Nat → String} {t : Token} {below : List Goal}

theorem IsWellFormed.abandon (h : r.IsWellFormed) : r.abandon.IsWellFormed where
  goals := fun _ hgoal => absurd hgoal List.not_mem_nil
  subjects := fun _ ht => absurd ht List.not_mem_nil
  graph := fun _ ht => absurd ht (Option.not_mem_none _)
  statements := h.statements

theorem IsWellFormed.cleared (h : r.IsWellFormed) : r.cleared.IsWellFormed where
  goals := h.goals
  subjects := h.subjects
  graph := h.graph
  statements := fun _ hs => absurd hs List.not_mem_nil

theorem IsWellFormed.note (h : r.IsWellFormed) (fault : SyntaxFault) :
    (r.note fault).IsWellFormed :=
  ⟨h.goals, h.subjects, h.graph, h.statements⟩

theorem IsWellFormed.fail (h : r.IsWellFormed) (fault : SyntaxFault) :
    (r.fail fault).IsWellFormed :=
  (h.note fault).abandon

theorem IsWellFormed.expect (h : r.IsWellFormed) {goals : List Goal}
    (hgoals : ∀ goal ∈ goals, goal.isWellFormed) : (r.expect goals).IsWellFormed :=
  ⟨hgoals, h.subjects, h.graph, h.statements⟩

theorem IsWellFormed.pushSubject (h : r.IsWellFormed) {subject : Term} (hsubject : subject.isNode) :
    (r.pushSubject subject).IsWellFormed :=
  ⟨h.goals, List.forall_mem_cons.2 ⟨hsubject, h.subjects⟩, h.graph, h.statements⟩

theorem IsWellFormed.popSubject (h : r.IsWellFormed) : r.popSubject.IsWellFormed :=
  ⟨h.goals, fun t ht => h.subjects t (List.mem_of_mem_tail ht), h.graph, h.statements⟩

theorem IsWellFormed.pushPredicate (h : r.IsWellFormed) (iri : String) :
    (r.pushPredicate iri).IsWellFormed :=
  ⟨h.goals, h.subjects, h.graph, h.statements⟩

theorem IsWellFormed.popPredicate (h : r.IsWellFormed) : r.popPredicate.IsWellFormed :=
  ⟨h.goals, h.subjects, h.graph, h.statements⟩

theorem IsWellFormed.popObject (h : r.IsWellFormed) : r.popObject.IsWellFormed :=
  ⟨h.goals, h.subjects, h.graph, h.statements⟩

theorem IsWellFormed.draw (h : r.IsWellFormed) : r.draw.IsWellFormed :=
  ⟨h.goals, h.subjects, h.graph, h.statements⟩

theorem IsWellFormed.inGraph (h : r.IsWellFormed) {graph : Option Term}
    (hgraph : ∀ name ∈ graph, name.isNode) :
    ({ r with graph } : Recognition).IsWellFormed :=
  ⟨h.goals, h.subjects, hgraph, h.statements⟩

theorem IsWellFormed.emit (h : r.IsWellFormed) {object : Term} (hobject : object.isWellFormed) :
    (r.emit object).IsWellFormed := by
  unfold Recognition.emit
  dsimp only
  split
  · next subject subjects predicate predicates hsubjects hpredicates =>
    refine ⟨h.goals, h.subjects, h.graph, List.forall_mem_cons.2 ⟨?_, h.statements⟩⟩
    refine Statement.isWellFormed_of_isNode h.graph (h.subjects subject ?_) hobject
    rw [show r.subjects = subject :: subjects from hsubjects]
    exact List.mem_cons_self
  · exact ⟨h.goals, h.subjects, h.graph, h.statements⟩

theorem IsWellFormed.emitRest (h : r.IsWellFormed) {node : Option Term}
    (hnode : ∀ t ∈ node, t.isNode) {rest : Term} (hrest : rest.isWellFormed) :
    (r.emitRest node rest).IsWellFormed := by
  cases node with
  | none => exact h
  | some node =>
    refine ⟨h.goals, h.subjects, h.graph, List.forall_mem_cons.2 ⟨?_, h.statements⟩⟩
    exact Statement.isWellFormed_of_isNode h.graph (hnode node rfl) hrest

theorem isWellFormed_of_isNode {t : Term} (h : t.isNode) : t.isWellFormed := by
  rw [Term.isNode, Bool.and_eq_true] at h
  exact h.2

theorem isNode_fresh (hlabels : ∀ n, isLabel (labels n).toList) (r : Recognition) :
    (r.fresh labels).isNode := by
  show (true && isLabel (labels r.drawn).toList) = true
  rw [hlabels]
  rfl

theorem isNode_of_resource? (ht : t.isWellFormed) {resource : Term}
    (h : r.resource? t = some (.ok resource)) : resource.isNode := by
  unfold resource? at h
  split at h
  · cases h
    show (true && _) = true
    rw [Bool.true_and]
    exact ht
  · obtain ⟨answer, -, hanswer⟩ := Option.map_eq_some_iff.1 h
    cases answer with
    | error fault => cases hanswer
    | ok iri =>
      cases hanswer
      rfl

theorem isWellFormed_ofDatatype (lexical datatype : String) :
    (Term.literal (.ofDatatype lexical datatype)).isWellFormed := by
  unfold Literal.ofDatatype
  split <;> rfl

theorem isWellFormed_of_plainLiteral? {literal : Literal} (h : plainLiteral? t = some literal) :
    (Term.literal literal).isWellFormed := by
  unfold plainLiteral? at h
  split at h
  · cases h
    exact isWellFormed_ofDatatype _ _
  · cases h
    exact isWellFormed_ofDatatype _ _
  · cases h
    exact isWellFormed_ofDatatype _ _
  · split at h
    · cases h
      exact isWellFormed_ofDatatype _ _
    · cases h
  · cases h

/-! ### Goals that use the token up -/

variable (h : r.IsWellFormed) (hbelow : ∀ goal ∈ below, goal.isWellFormed)
include h hbelow

theorem IsWellFormed.acceptVerb (t : Token) : (r.acceptVerb t below).IsWellFormed := by
  unfold Recognition.acceptVerb
  split
  · exact (h.pushPredicate _).expect hbelow
  · split
    · exact (h.pushPredicate _).expect hbelow
    · exact h.fail _
    · exact h.fail _

theorem IsWellFormed.acceptPredicates (t : Token) : (r.acceptPredicates t below).IsWellFormed :=
  h.acceptVerb (List.forall_mem_cons.2 ⟨rfl, List.forall_mem_cons.2 ⟨rfl, hbelow⟩⟩) t

theorem IsWellFormed.acceptObject (ht : t.isWellFormed) :
    (r.acceptObject t below).IsWellFormed := by
  unfold Recognition.acceptObject
  split
  · next resource hresource =>
    exact (h.emit (isWellFormed_of_isNode (isNode_of_resource? ht hresource))).expect hbelow
  · exact h.fail _
  · split
    · exact h.expect (List.forall_mem_cons.2 ⟨rfl, hbelow⟩)
    · exact h.expect (List.forall_mem_cons.2 ⟨rfl, hbelow⟩)
    · exact h.expect (List.forall_mem_cons.2 ⟨rfl, hbelow⟩)
    · split
      · next literal hliteral =>
        exact (h.emit (isWellFormed_of_plainLiteral? hliteral)).expect hbelow
      · exact h.fail _

theorem IsWellFormed.acceptItem (ht : t.isWellFormed) {node : Term} (hnode : node.isNode) :
    (r.acceptItem t node below).IsWellFormed :=
  ((h.pushSubject hnode).pushPredicate _).acceptObject (List.forall_mem_cons.2 ⟨rfl, hbelow⟩) ht

theorem IsWellFormed.acceptCollectionEnd (hlabels : ∀ n, isLabel (labels n).toList)
    (ht : t.isWellFormed) : (r.acceptCollectionEnd labels t below).IsWellFormed := by
  have hnode : ∀ node ∈ r.subjects.head?, node.isNode := by
    intro node hmem
    exact h.subjects node (List.mem_of_head? hmem)
  have hpopped := h.popSubject.popObject
  unfold Recognition.acceptCollectionEnd
  dsimp only
  split
  · exact (hpopped.popPredicate.emitRest hnode rfl).expect hbelow
  · have hnext := isNode_fresh hlabels r.popSubject.popObject
    exact ((hpopped.draw.emitRest hnode (isWellFormed_of_isNode hnext)).pushSubject hnext).acceptObject
      (List.forall_mem_cons.2 ⟨rfl, hbelow⟩) ht

theorem IsWellFormed.acceptSubjectOrGraph (ht : t.isWellFormed) :
    (r.acceptSubjectOrGraph t below).IsWellFormed := by
  unfold Recognition.acceptSubjectOrGraph
  split
  · next resource hresource =>
    exact h.expect (List.forall_mem_cons.2 ⟨isNode_of_resource? ht hresource, hbelow⟩)
  · exact h.fail _
  · split
    · exact h.expect (List.forall_mem_cons.2 ⟨rfl, hbelow⟩)
    · exact h.expect (List.forall_mem_cons.2 ⟨rfl, List.forall_mem_cons.2 ⟨rfl,
        List.forall_mem_cons.2 ⟨rfl, hbelow⟩⟩⟩)
    · exact h.fail _

end

section

variable {r : Recognition} {labels : Nat → String} {t : Token}

theorem isWellFormed_cons {goal : Goal} {below : List Goal} (hgoal : goal.isWellFormed)
    (hbelow : ∀ goal ∈ below, goal.isWellFormed) :
    ∀ g ∈ goal :: below, g.isWellFormed :=
  List.forall_mem_cons.2 ⟨hgoal, hbelow⟩

theorem IsWellFormed.acceptDocument (h : r.IsWellFormed) (ht : t.isWellFormed) :
    (r.acceptDocument t).IsWellFormed := by
  have hgraph : ({ r with graph := none } : Recognition).IsWellFormed := h.inGraph nofun
  have hdocument : ∀ goal ∈ [Goal.document], goal.isWellFormed := isWellFormed_cons rfl nofun
  unfold Recognition.acceptDocument
  dsimp only
  split
  · exact hgraph.expect (isWellFormed_cons rfl (isWellFormed_cons rfl hdocument))
  · exact hgraph.expect (isWellFormed_cons rfl (isWellFormed_cons rfl hdocument))
  · exact hgraph.expect (isWellFormed_cons rfl (isWellFormed_cons rfl hdocument))
  · split
    · exact hgraph.expect (isWellFormed_cons rfl hdocument)
    · split
      · exact hgraph.expect (isWellFormed_cons rfl hdocument)
      · split
        · exact hgraph.expect (isWellFormed_cons rfl (isWellFormed_cons rfl hdocument))
        · exact hgraph.acceptSubjectOrGraph hdocument ht
  · exact hgraph.acceptSubjectOrGraph hdocument ht

theorem IsWellFormed.recover (h : r.IsWellFormed) (t : Token) : (r.recover t).IsWellFormed := by
  unfold Recognition.recover
  split
  · exact h.expect (isWellFormed_cons rfl nofun)
  · exact h.expect nofun

/-- A token that comes to these goals leaves everything well formed. -/
theorem IsWellFormed.acceptWith (hlabels : ∀ n, isLabel (labels n).toList) (ht : t.isWellFormed)
    {goals : List Goal} (hgoals : ∀ goal ∈ goals, goal.isWellFormed) (h : r.IsWellFormed) :
    (Recognition.acceptWith labels t goals r).IsWellFormed := by
  have hfresh : ∀ r : Recognition, (r.fresh labels).isNode := isNode_fresh hlabels
  induction goals generalizing r with
  | nil => exact h.recover t
  | cons goal below ih =>
    obtain ⟨hgoal, hbelow⟩ := List.forall_mem_cons.1 hgoals
    replace ih := fun {r : Recognition} (h : r.IsWellFormed) => ih hbelow h
    have hblock : ∀ g ∈ .blockStatement :: .blockEnd :: below, g.isWellFormed :=
      isWellFormed_cons rfl (isWellFormed_cons rfl hbelow)
    -- Each goal uses the token up, faults it, or leaves it to the goals below.
    unfold Recognition.acceptWith
    cases goal with
    | document => exact h.acceptDocument ht
    | dot =>
      dsimp only
      split
      · exact h.popSubject.expect hbelow
      · exact ih (h.popSubject.note _)
    | baseIri =>
      dsimp only
      split
      · exact ⟨hbelow, h.subjects, h.graph, h.statements⟩
      · exact h.fail _
    | declaredName =>
      dsimp only
      split
      · exact h.expect (isWellFormed_cons rfl hbelow)
      · exact h.fail _
    | declaredIri space =>
      dsimp only
      split
      · exact ⟨hbelow, h.subjects, h.graph, h.statements⟩
      · exact h.fail _
    | subjectOrGraph => exact h.acceptSubjectOrGraph hbelow ht
    | blockOrPredicates resource =>
      dsimp only
      split
      · refine (h.inGraph ?_).expect hblock
        intro name hname
        rw [← Option.some.inj hname]
        exact hgoal
      · exact (h.pushSubject hgoal).acceptPredicates (isWellFormed_cons rfl hbelow) t
    | leadingBracket =>
      dsimp only
      split
      · exact h.draw.expect (isWellFormed_cons (hfresh r) hbelow)
      · exact (h.draw.pushSubject (hfresh r)).acceptPredicates
          (isWellFormed_cons rfl (isWellFormed_cons rfl hbelow)) t
    | subjectBracketEnd =>
      dsimp only
      split
      · exact h.expect (isWellFormed_cons rfl hbelow)
      · split
        · exact ih (h.note _)
        · exact (h.note _).acceptPredicates hbelow t
    | optionalPredicates =>
      dsimp only
      split
      · exact ih h
      · exact h.acceptPredicates hbelow t
    | subjectCollection =>
      dsimp only
      split
      · exact (h.pushSubject rfl).expect hbelow
      · exact (h.draw.pushSubject (hfresh r)).acceptItem hbelow ht (hfresh r)
    | collectionEnd => exact h.acceptCollectionEnd hbelow hlabels ht
    | block =>
      dsimp only
      split
      · exact h.expect hblock
      · exact h.fail _
    | blockEnd =>
      dsimp only
      split
      · exact h.popSubject.expect hbelow
      · split
        · exact h.popSubject.expect hblock
        · exact ih (h.popSubject.note _)
    | blockStatement =>
      dsimp only
      split
      · next resource hresource =>
        exact (h.pushSubject (isNode_of_resource? ht hresource)).expect
          (isWellFormed_cons rfl hbelow)
      · exact h.fail _
      · split
        · exact ih h
        · exact (h.draw.pushSubject (hfresh r)).expect (isWellFormed_cons rfl hbelow)
        · exact h.expect (isWellFormed_cons rfl (isWellFormed_cons rfl hbelow))
        · exact h.fail _
    | blockBracket =>
      dsimp only
      split
      · exact h.expect (isWellFormed_cons rfl hbelow)
      · exact h.acceptPredicates (isWellFormed_cons rfl hbelow) t
    | graphName =>
      dsimp only
      split
      · next resource hresource =>
        refine (h.inGraph ?_).expect hbelow
        intro name hname
        rw [← Option.some.inj hname]
        exact isNode_of_resource? ht hresource
      · exact h.fail _
      · split
        · exact h.expect (isWellFormed_cons rfl hbelow)
        · exact h.fail _
    | graphBracketEnd =>
      dsimp only
      split
      · refine (h.draw.inGraph ?_).expect hbelow
        intro name hname
        rw [← Option.some.inj hname]
        exact hfresh r
      · exact h.fail _
    | predicates => exact h.acceptPredicates hbelow t
    | predicatesEnd =>
      dsimp only
      split
      · exact h.popPredicate.expect (isWellFormed_cons rfl hbelow)
      · exact ih h.popPredicate
    | morePredicates =>
      dsimp only
      split
      · exact h.expect (isWellFormed_cons rfl hbelow)
      · split
        · exact ih h
        · exact h.acceptPredicates hbelow t
    | verb => exact h.acceptVerb hbelow t
    | objects => exact h.acceptObject (isWellFormed_cons rfl hbelow) ht
    | objectsEnd =>
      dsimp only
      split
      · exact h.popObject.expect (isWellFormed_cons rfl (isWellFormed_cons rfl hbelow))
      · exact ih h.popObject
    | object => exact h.acceptObject hbelow ht
    | objectBracket =>
      dsimp only
      split
      · exact (h.draw.emit (isWellFormed_of_isNode (hfresh r))).expect hbelow
      · exact (h.draw.pushSubject (hfresh r)).acceptPredicates (isWellFormed_cons rfl hbelow) t
    | objectBracketEnd =>
      dsimp only
      split
      · split
        · next node hnode =>
          have hmem : node ∈ r.subjects := List.mem_of_head? hnode
          exact (h.popSubject.emit (isWellFormed_of_isNode (h.subjects node hmem))).expect hbelow
        · exact h.expect hbelow
      · exact h.fail _
    | objectCollection =>
      dsimp only
      split
      · exact (h.emit rfl).expect hbelow
      · exact (h.draw.emit (isWellFormed_of_isNode (hfresh r))).acceptItem hbelow ht (hfresh r)
    | literalTag value =>
      dsimp only
      split
      · next tag =>
        have htag : (Term.literal (.tagged value (lowercase tag))).isWellFormed := ht
        exact (h.emit htag).expect hbelow
      · exact h.expect (isWellFormed_cons rfl hbelow)
      · exact ih (h.emit rfl)
    | literalDatatype value =>
      dsimp only
      split
      · exact (h.emit (isWellFormed_ofDatatype _ _)).expect hbelow
      · exact h.fail _
      · exact (h.fail _).recover t

theorem IsWellFormed.accept (hlabels : ∀ n, isLabel (labels n).toList) (ht : t.isWellFormed)
    (h : r.IsWellFormed) : (r.accept labels t).IsWellFormed :=
  h.acceptWith hlabels ht h.goals

theorem IsWellFormed.close (h : r.IsWellFormed) : r.close.IsWellFormed := by
  unfold Recognition.close
  split
  · exact h
  · exact h
  · exact (h.emit rfl).note _
  · exact h.note _

end

end Recognition

/-! ## Whole runs -/

namespace Parser

variable {labels : Nat → String} {ended : Bool} {p p' : Parser} {events : List Event}

theorem statementsOf_problemAt (cursor : Cursor) (message : String) :
    statementsOf [problemAt cursor message] = [] := rfl

/-- A token yields well-formed statements and leaves what is open well formed. -/
theorem isWellFormed_of_next? (hlabels : ∀ n, isLabel (labels n).toList)
    (hp : p.recognition.IsWellFormed) (h : p.next? labels ended = some (events, p')) :
    (∀ s ∈ statementsOf events, s.isWellFormed) ∧ p'.recognition.IsWellFormed := by
  unfold next? at h
  split at h
  · unfold readToken at h
    split at h
    · split at h
      · simp only [Option.some.injEq, Prod.mk.injEq] at h
        rw [← h.1, ← h.2, statementsOf_problemAt]
        exact ⟨fun s hs => absurd hs List.not_mem_nil, hp.abandon⟩
      · cases h
    · simp only [Option.some.injEq, Prod.mk.injEq] at h
      rw [← h.1, ← h.2, statementsOf_problemAt]
      exact ⟨fun s hs => absurd hs List.not_mem_nil, hp.abandon⟩
    · next t size hscan =>
      simp only [Option.some.injEq, Prod.mk.injEq] at h
      have haccept := hp.accept hlabels (isWellFormed_of_scan hscan)
      rw [← h.1, ← h.2, statementsOf_report]
      exact ⟨haccept.statements, haccept.cleared⟩
  · cases h

theorem isWellFormed_of_drain (hlabels : ∀ n, isLabel (labels n).toList)
    (hp : p.recognition.IsWellFormed) :
    (∀ s ∈ statementsOf (p.drain labels ended).1, s.isWellFormed)
      ∧ (p.drain labels ended).2.recognition.IsWellFormed := by
  induction hn : p.unread.length using Nat.strongRecOn generalizing p with
  | ind n ih =>
    cases hnext : p.next? labels ended with
    | none =>
      rw [drain_of_none labels hnext]
      exact ⟨fun s hs => absurd hs List.not_mem_nil, hp⟩
    | some next =>
      obtain ⟨events, p'⟩ := next
      obtain ⟨hevents, hp'⟩ := isWellFormed_of_next? hlabels hp hnext
      have hlt := length_lt_of_next? hnext
      obtain ⟨hlater, hend⟩ := ih _ (hn ▸ hlt) hp' rfl
      rw [drain_of_some labels hnext]
      refine ⟨?_, hend⟩
      intro s hs
      rw [statementsOf_append, List.mem_append] at hs
      rcases hs with hs | hs
      · exact hevents s hs
      · exact hlater s hs

theorem isWellFormed_of_close (hlabels : ∀ n, isLabel (labels n).toList)
    (hp : p.recognition.IsWellFormed) :
    ∀ s ∈ statementsOf (p.close labels), s.isWellFormed := by
  obtain ⟨hevents, hend⟩ := @isWellFormed_of_drain labels true p hlabels hp
  unfold close
  generalize p.drain labels true = drained at hevents hend
  obtain ⟨events, p'⟩ := drained
  dsimp only
  split
  · intro s hs
    rw [statementsOf_append, List.mem_append] at hs
    rcases hs with hs | hs
    · exact hevents s hs
    · rw [statementsOf_report] at hs
      exact hend.close.statements s hs
  · exact hevents

end Parser

/-- Reading a document yields well-formed statements, whatever its problems. -/
theorem isWellFormed_of_mem_readAll {labels : Nat → String}
    (hlabels : ∀ n, isLabel (labels n).toList) (base : Option Iri) (warnsUnused : Bool)
    (bytes : Bytes) :
    ∀ s ∈ statementsOf (readAll labels base warnsUnused bytes), s.isWellFormed := by
  rw [statementsOf_readAll]
  exact Parser.isWellFormed_of_close hlabels (Recognition.isWellFormed_start base)

end Trig
end TidyTrig
