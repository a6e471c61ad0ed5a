import Mathlib.Data.List.Basic
import TidyTrig.Failure
import TidyTrig.Proofs.Trig.Words

/-!
# Terms are read back as they are spelled

`isSpellable` says which terms, statements and declarations a document can hold: those with valid
IRIs, labels, tags and names. A writer abbreviates IRIs by the declarations that it wrote, so what
it spells means the same to a reader who knows them all (`Knows`). Then every resource is one word
that stands for it (`exists_word_of_resource`).
-/

namespace TidyTrig

open Utf8

/-! ## What a document can hold -/

/-- Whether a text is an absolute IRI. -/
def isIri (text : String) : Bool := (Iri.parse text).isOk

def Literal.isSpellable : Literal → Bool
  | .simple _ => true
  | .tagged _ language => LanguageTag.isTag language
  | .typed _ datatype _ => isIri datatype

def Term.isSpellable : Term → Bool
  | .iri text => isIri text
  | .blank label => Trig.isLabel label.toList
  | .literal value => value.isSpellable

def Statement.isSpellable (s : Statement) : Bool :=
  s.misfit?.isNone && s.terms.all Term.isSpellable

def Namespace.isSpellable (space : Namespace) : Bool :=
  Trig.isPrefixName space.name.toList && isIri space.iri

theorem exists_of_isIri {text : String} (h : isIri text) : ∃ i, Iri.parse text = .ok i := by
  rw [isIri] at h
  cases hparse : Iri.parse text with
  | ok i => exact ⟨i, rfl⟩
  | error e =>
    rw [hparse] at h
    cases h

theorem Statement.misfit?_of_isSpellable {s : Statement} (h : s.isSpellable) : s.misfit? = none := by
  rw [isSpellable, Bool.and_eq_true, Option.isNone_iff_eq_none] at h
  exact h.1

/-- The parts of a statement that a document can hold. -/
theorem Statement.of_isSpellable {s : Statement} (h : s.isSpellable) :
    (∀ g ∈ s.graph, g.isResource ∧ g.isSpellable) ∧ (s.subject.isResource ∧ s.subject.isSpellable)
      ∧ (∃ p, s.predicate = .iri p ∧ isIri p) ∧ s.object.isSpellable := by
  rw [isSpellable, Bool.and_eq_true, Option.isNone_iff_eq_none] at h
  obtain ⟨hfit, hterms⟩ := h
  rw [terms, List.all_append, Bool.and_eq_true] at hterms
  simp only [List.all_cons, List.all_nil, Bool.and_true, Bool.and_eq_true] at hterms
  obtain ⟨hgraph, hsubject, hpredicate, hobject⟩ := hterms
  unfold misfit? at hfit
  split at hfit
  · cases hfit
  · next hs =>
    split at hfit
    · cases hfit
    · next hp =>
      split at hfit
      · cases hfit
      · next hg =>
        refine ⟨?_, ⟨by simpa using hs, hsubject⟩, ?_, hobject⟩
        · intro g hmem
          have hsome : s.graph = some g := hmem
          rw [hsome] at hg hgraph
          exact ⟨by simpa using hg, by simpa using hgraph⟩
        · cases hpred : s.predicate with
          | iri p =>
            rw [hpred] at hpredicate
            exact ⟨p, rfl, hpredicate⟩
          | blank label =>
            rw [hpred] at hp
            exact absurd rfl hp
          | literal value =>
            rw [hpred] at hp
            exact absurd rfl hp

namespace Trig

/-! ## Declarations in force -/

/-- A declaration with a valid name, and between whose brackets stands what is read as an IRI. -/
def IsReadable (base : Option Iri) (space : Namespace) : Prop :=
  isPrefixName space.name.toList ∧ ∃ i, ReadsAs base space.iri i

theorem isReadable_of_isSpellable {space : Namespace} (h : space.isSpellable)
    (base : Option Iri) : IsReadable base space := by
  rw [Namespace.isSpellable, Bool.and_eq_true] at h
  obtain ⟨i, hi⟩ := exists_of_isIri h.2
  exact ⟨h.1, i, readsAs_of_parse hi base⟩

/-- A reader knows these declarations, each as the text between its brackets was read. -/
def Knows (r : Recognition) (spaces : List Namespace) : Prop :=
  ∀ space ∈ spaces, isPrefixName space.name.toList
    ∧ ∃ i, r.space? space.name = some i ∧ ReadsAs r.base space.iri i

/-- What is left of an IRI with its scheme after a plain name is cut off has the same scheme. -/
theorem scheme?_of_append {cs name scheme rest : List Char} (hname : ':' ∉ name)
    (h : Iri.scheme? (cs ++ name) = some (scheme, rest)) :
    ∃ rest', Iri.scheme? cs = some (scheme, rest') ∧ cs = scheme ++ ':' :: rest' := by
  obtain ⟨heq, hall, hfirst⟩ := Iri.of_scheme? h
  have hcolon : Iri.isSchemeChar ':' = false := by decide
  obtain ⟨rest', hcs⟩ : ∃ rest', cs = scheme ++ ':' :: rest' := by
    rcases List.append_eq_append_iff.1 heq with ⟨mid, hscheme, hrest⟩ | ⟨mid, hcs, hrest⟩
    · -- The colon would stand in the plain name.
      exfalso
      apply hname
      rw [hrest, List.mem_append]
      exact .inr List.mem_cons_self
    · cases mid with
      | nil =>
        exfalso
        apply hname
        rw [List.nil_append] at hrest
        rw [← hrest]
        exact List.mem_cons_self
      | cons c mid =>
        rw [List.cons_append] at hrest
        cases hrest
        exact ⟨mid, hcs⟩
  refine ⟨rest', ?_, hcs⟩
  cases scheme with
  | nil =>
    rw [hcs] at hfirst
    exact absurd (hfirst ':' rfl) (by decide)
  | cons first scheme =>
    have halpha : first.isAlpha := by
      rw [hcs] at hfirst
      exact hfirst first rfl
    have hdrop : cs.dropWhile Iri.isSchemeChar = ':' :: rest' := by
      rw [hcs, List.dropWhile_append_of_pos (List.all_eq_true.1 hall),
        List.dropWhile_cons_of_neg (by rw [hcolon]; exact Bool.false_ne_true)]
    have htake : cs.takeWhile Iri.isSchemeChar = first :: scheme := by
      rw [hcs, List.takeWhile_append_of_pos (List.all_eq_true.1 hall),
        List.takeWhile_cons_of_neg (by rw [hcolon]; exact Bool.false_ne_true), List.append_nil]
    cases cs with
    | nil => cases hcs
    | cons c cs =>
      cases hcs
      unfold Iri.scheme?
      dsimp only
      rw [if_pos halpha, hdrop, htake]
      rfl

/-- A namespace by which an IRI is abbreviated is the very text of its declaration, whatever else
a reader could have made of it. -/
theorem text_of_readsAs {base : Option Iri} {text : String} {i : Iri} (h : ReadsAs base text i)
    {name : List Char} (hname : isPlainName name) {iri : String} (hiri : isIri iri)
    (heq : iri.toList = text.toList ++ name) : i.text = text := by
  obtain ⟨whole, hwhole⟩ := exists_of_isIri hiri
  have hchars := Iri.all_isIriChar_of_ofChars hwhole
  obtain ⟨scheme, rest, hscheme, -⟩ := Iri.exists_scheme_of_ofChars hwhole
  rw [heq] at hchars hscheme
  rw [List.all_append, Bool.and_eq_true] at hchars
  obtain ⟨rest', hscheme', htext⟩ := scheme?_of_append (not_mem_of_isPlainName hname (by decide)) hscheme
  rw [readsAs_iff_of_all_isIriChar hchars.1] at h
  have hread : Iri.readAfterScheme scheme rest' = .ok i := by
    cases base with
    | none =>
      rw [Option.elim_none, Iri.parse] at h
      unfold Iri.ofChars at h
      rw [hscheme'] at h
      exact h
    | some base =>
      rw [Option.elim_some, Iri.resolve] at h
      unfold Iri.resolveChars at h
      rw [hscheme'] at h
      exact h
  rw [Iri.text, (Iri.of_readAfterScheme hread).1, ← htext, String.ofList_toList]

/-! ## Abbreviation -/

theorem of_mem_abbreviations {spaces : List Namespace} {iri : String} {space : Namespace}
    {name : List Char} (h : (space, name) ∈ abbreviations spaces iri) :
    space ∈ spaces ∧ iri.toList = space.iri.toList ++ name ∧ isPlainName name := by
  obtain ⟨space', hmem, hsome⟩ := List.mem_filterMap.1 h
  split at hsome
  · next name' hprefix =>
    split at hsome
    · next hplain =>
      cases hsome
      exact ⟨hmem, (List.append_eq_of_isPrefixOf?_eq_some hprefix).symm, hplain⟩
    · cases hsome
  · cases hsome

theorem mem_of_longest {candidates : List (Namespace × List Char)}
    {a : Namespace × List Char} (h : longest candidates = some a) : a ∈ candidates := by
  induction candidates generalizing a with
  | nil => cases h
  | cons first rest ih =>
    rw [longest] at h
    split at h
    · next b hb =>
      split at h
      · cases h
        exact List.mem_cons_self
      · cases h
        exact List.mem_cons_of_mem _ (ih hb)
    · cases h
      exact List.mem_cons_self

/-! ## Words that stand for terms -/

variable {r : Recognition} {spaces : List Namespace}

/-- A word that is read back as what it was spelled for. -/
theorem exists_word_of_iri (hknows : Knows r spaces) {iri : String} (h : isIri iri) :
    ∃ t, Lexes r.base (encode (spellIri spaces iri)) t IsGap ∧ r.iri? t = some (.ok iri) := by
  obtain ⟨i, hi⟩ := exists_of_isIri h
  unfold spellIri
  split
  · next space name hlongest =>
    obtain ⟨hspace, heq, hplain⟩ := of_mem_abbreviations (mem_of_longest hlongest)
    obtain ⟨hname, j, hlookup, hreads⟩ := hknows space hspace
    have htext : j.text = space.iri := text_of_readsAs hreads hplain h heq
    have hiri : j.text ++ String.ofList name = iri := by
      apply String.toList_inj.1
      rw [String.toList_append, String.toList_ofList, htext, heq]
    refine ⟨.name space.name (.ofList name) false, ?_, ?_⟩
    · have hword := lexes_name r.base hname hplain
      rw [String.ofList_toList] at hword
      exact hword
    · rw [Recognition.iri?, Recognition.expand, hlookup]
      dsimp only
      rw [hiri, hi]
      dsimp only
      rw [ite_self]
  · refine ⟨.iri i, lexes_iri (readsAs_of_parse hi r.base) IsGap, ?_⟩
    rw [Recognition.iri?, Iri.text_of_parse hi]

theorem resource?_of_iri? {t : Token} {iri : String} (h : r.iri? t = some (.ok iri)) :
    r.resource? t = some (.ok (.iri iri)) := by
  unfold Recognition.resource?
  split
  · cases h
  · rw [h]
    rfl

theorem exists_word_of_resource (hknows : Knows r spaces) {term : Term} (hkind : term.isResource)
    (h : term.isSpellable) :
    ∃ t, Lexes r.base (encode (spellTerm spaces term)) t IsGap
      ∧ r.resource? t = some (.ok term) := by
  cases term with
  | iri text =>
    obtain ⟨t, hword, hiri⟩ := exists_word_of_iri hknows h
    exact ⟨t, hword, resource?_of_iri? hiri⟩
  | blank label =>
    refine ⟨.blank label, ?_, rfl⟩
    have hword := lexes_label r.base h
    rw [String.ofList_toList] at hword
    exact hword
  | literal value => cases hkind

end Trig
end TidyTrig
