import TidyTrig.Proofs.Text.Utf8
import TidyTrig.Rdf.Order

/-!
# The canonical order is an order

Statements are compared by the bytes of canonical forms, so what compares equal need not be equal.
`Term.isUnambiguous` names the terms whose canonical form tells what they are; among statements of
such terms the order is strict (`Statement.eq_of_compare_eq`), and how they were arranged before
sorting leaves no trace (`Statement.sort_eq_of_perm`). All others may tie, and then keep the order
that they had (`Statement.isOrder_compare`).
-/

namespace TidyTrig

open Utf8 (encode)

/-- Comparing by a part of what is compared. -/
theorem transCmp_on {α β : Type} {c : β → β → Ordering} [Std.TransCmp c] (f : α → β) :
    Std.TransCmp fun x y => c (f x) (f y) where
  eq_swap := Std.OrientedCmp.eq_swap
  isLE_trans := Std.TransCmp.isLE_trans

instance : Std.TransCmp Bytes.compare :=
  inferInstanceAs (Std.TransCmp (List.compareLex (compare : UInt8 → UInt8 → Ordering)))

instance : Std.LawfulEqCmp Bytes.compare :=
  inferInstanceAs (Std.LawfulEqCmp (List.compareLex (compare : UInt8 → UInt8 → Ordering)))

instance : Std.TransCmp Term.compare := transCmp_on fun t : Term => Utf8.encode t.canonical

namespace Statement

instance : Std.TransCmp compareGraphs where
  eq_swap := by
    intro a b
    cases a with
    | none => cases b <;> rfl
    | some a =>
      cases b with
      | none => rfl
      | some b =>
        show a.compare b = (b.compare a).swap
        exact Std.OrientedCmp.eq_swap
  isLE_trans := by
    intro a b c hab hbc
    cases a with
    | none => cases c <;> rfl
    | some a =>
      cases b with
      | none => cases hab
      | some b =>
        cases c with
        | none => cases hbc
        | some c =>
          change (a.compare b).isLE at hab
          change (b.compare c).isLE at hbc
          show (a.compare c).isLE
          exact Std.TransCmp.isLE_trans hab hbc

/-- The canonical order is an order up to statements that compare equal. -/
instance : Std.TransCmp compare :=
  have := transCmp_on (c := compareGraphs) graph
  have := transCmp_on (c := Term.compare) subject
  have := transCmp_on (c := Term.compare) predicate
  have := transCmp_on (c := Term.compare) object
  inferInstanceAs (Std.TransCmp (compareLex (fun a b : Statement => compareGraphs a.graph b.graph)
    (compareLex (fun a b : Statement => a.subject.compare b.subject)
      (compareLex (fun a b : Statement => a.predicate.compare b.predicate)
        fun a b : Statement => a.object.compare b.object))))

theorem sort_perm (ss : List Statement) : (sort ss).Perm ss := List.mergeSort_perm _ _

theorem mem_sort {s : Statement} {ss : List Statement} : s ∈ sort ss ↔ s ∈ ss :=
  (sort_perm ss).mem_iff

/-- Of two statements one does not come after the other. -/
theorem isLE_or_isLE (a b : Statement) : (a.compare b).isLE || (b.compare a).isLE := by
  rw [Bool.or_eq_true]
  cases hab : (compare a b).isLE with
  | true => exact .inl rfl
  | false =>
    right
    have hswap : compare b a = (compare a b).swap := Std.OrientedCmp.eq_swap
    rw [hswap]
    revert hab
    cases compare a b <;> decide

/-- Sorted statements are in canonical order. -/
theorem pairwise_sort (ss : List Statement) :
    (sort ss).Pairwise fun a b => (a.compare b).isLE := by
  apply List.pairwise_mergeSort
  · intro a b c hab hbc
    exact Std.TransCmp.isLE_trans hab hbc
  · exact isLE_or_isLE

/-- Statements in canonical order stay where they are. -/
theorem sort_sort (ss : List Statement) : sort (sort ss) = sort ss :=
  List.mergeSort_of_pairwise (pairwise_sort ss)

end Statement

/-! ## Terms that their canonical form tells apart -/

/-- Whether a character may stand in a language tag. -/
def isTagChar (c : Char) : Bool := c.isAlphanum || c = '-'

/-- Whether the tag or the datatype of a literal can be told from what is quoted. -/
def Literal.isUnambiguous : Literal → Bool
  | .simple _ => true
  | .tagged _ language => !language.toList.isEmpty && language.toList.all isTagChar
  | .typed _ datatype _ => datatype.toList.all (· ≠ '\x22')

/-- Whether the canonical form of a term tells what it is: an IRI starts with a letter, and what
follows the quotes of a literal has none of its own. -/
def Term.isUnambiguous : Term → Bool
  | .iri text => text.toList.head?.any Char.isAlpha
  | .blank _ => true
  | .literal value => value.isUnambiguous

/-- Whether all terms of a statement are unambiguous. -/
def Statement.isUnambiguous (s : Statement) : Bool := s.terms.all Term.isUnambiguous

/-- A text is divided at the last quote that it has. -/
theorem eq_of_append_quote {front front' back back' : List Char} (hback : '\x22' ∉ back)
    (hback' : '\x22' ∉ back') (h : front ++ '\x22' :: back = front' ++ '\x22' :: back') :
    front = front' ∧ back = back' := by
  rcases List.append_eq_append_iff.1 h with ⟨gap, rfl, hgap⟩ | ⟨gap, rfl, hgap⟩
  · cases gap with
    | nil => exact ⟨(List.append_nil _).symm, (List.cons.inj hgap).2⟩
    | cons c gap =>
      refine absurd ?_ hback
      rw [(List.cons.inj hgap).2]
      exact List.mem_append_right _ List.mem_cons_self
  · cases gap with
    | nil => exact ⟨List.append_nil _, (List.cons.inj hgap).2.symm⟩
    | cons c gap =>
      refine absurd ?_ hback'
      rw [(List.cons.inj hgap).2]
      exact List.mem_append_right _ List.mem_cons_self

namespace Literal

/-- What follows the quotes of a literal. -/
def suffix : Literal → List Char
  | .simple _ => []
  | .tagged _ language => '@' :: language.toList
  | .typed _ datatype _ => '^' :: '^' :: '<' :: (datatype.toList ++ ['>'])

/-- The text of a literal is a quote, the lexical form, a quote and the suffix. -/
theorem toList_text (value : Literal) :
    value.text.toList = '\x22' :: (value.lexical.toList ++ '\x22' :: value.suffix) := by
  cases value with
  | simple lexical => simp [text, suffix, Literal.lexical, String.toList_append]
  | tagged lexical language => simp [text, suffix, Literal.lexical, String.toList_append]
  | typed lexical datatype proper => simp [text, suffix, Literal.lexical, String.toList_append]

theorem quote_not_mem_suffix {value : Literal} (h : value.isUnambiguous) :
    '\x22' ∉ value.suffix := by
  cases value with
  | simple lexical => exact List.not_mem_nil
  | tagged lexical language =>
    rw [isUnambiguous, Bool.and_eq_true] at h
    intro hmem
    rcases List.mem_cons.1 hmem with heq | hmem
    · cases heq
    · exact absurd (List.all_eq_true.1 h.2 _ hmem) (by decide)
  | typed lexical datatype proper =>
    intro hmem
    simp only [suffix, List.mem_cons, List.mem_append] at hmem
    rcases hmem with heq | heq | heq | hmem | heq | hnil
    · cases heq
    · cases heq
    · cases heq
    · exact absurd (List.all_eq_true.1 h _ hmem) (by decide)
    · cases heq
    · cases hnil

/-- The first character of the suffix tells the kind of a literal, the rest its tag or datatype. -/
theorem eq_of_suffix_eq {a b : Literal} (hlexical : a.lexical = b.lexical)
    (hsuffix : a.suffix = b.suffix) : a = b := by
  cases a with
  | simple =>
    cases b with
    | simple => exact congrArg _ hlexical
    | tagged => cases hsuffix
    | typed => cases hsuffix
  | tagged =>
    cases b with
    | simple => cases hsuffix
    | tagged =>
      cases hlexical
      rw [String.toList_inj.1 (List.cons.inj hsuffix).2]
    | typed => cases hsuffix
  | typed =>
    cases b with
    | simple => cases hsuffix
    | tagged => cases hsuffix
    | typed =>
      cases hlexical
      simp only [suffix, List.cons.injEq, true_and] at hsuffix
      cases String.toList_inj.1 (List.append_cancel_right hsuffix)
      rfl

theorem eq_of_text_eq {a b : Literal} (ha : a.isUnambiguous) (hb : b.isUnambiguous)
    (h : a.text = b.text) : a = b := by
  have hchars := congrArg String.toList h
  rw [toList_text, toList_text] at hchars
  obtain ⟨hlexical, hsuffix⟩ := eq_of_append_quote (quote_not_mem_suffix ha)
    (quote_not_mem_suffix hb) (List.cons.inj hchars).2
  exact eq_of_suffix_eq (String.toList_inj.1 hlexical) hsuffix

end Literal

namespace Term

/-- The first character of a canonical form tells the kind of an unambiguous term. -/
theorem eq_of_canonical_eq {a b : Term} (ha : a.isUnambiguous) (hb : b.isUnambiguous)
    (h : a.canonical = b.canonical) : a = b := by
  have hblank : ∀ label : String, ("_:" ++ label).toList.head? = some '_' := by
    intro label
    rw [String.toList_append]
    rfl
  have hliteral : ∀ value : Literal, value.text.toList.head? = some '\x22' := by
    intro value
    rw [Literal.toList_text]
    rfl
  have hiri : ∀ text c, (iri text).isUnambiguous → text.toList.head? = some c → c.isAlpha := by
    intro text c htext hc
    rw [isUnambiguous, hc] at htext
    exact htext
  have hheads := congrArg (fun text : String => text.toList.head?) h
  cases a with
  | iri text =>
    cases b with
    | iri text' => exact congrArg _ h
    | blank label => exact absurd (hiri text _ ha (hheads.trans (hblank label))) (by decide)
    | literal value => exact absurd (hiri text _ ha (hheads.trans (hliteral value))) (by decide)
  | blank label =>
    cases b with
    | iri text => exact absurd (hiri text _ hb (hheads.symm.trans (hblank label))) (by decide)
    | blank label' =>
      have hchars := congrArg String.toList h
      rw [canonical, canonical, String.toList_append, String.toList_append] at hchars
      rw [String.toList_inj.1 (List.append_cancel_left hchars)]
    | literal value =>
      have := (hblank label).symm.trans (hheads.trans (hliteral value))
      cases this
  | literal value =>
    cases b with
    | iri text => exact absurd (hiri text _ hb (hheads.symm.trans (hliteral value))) (by decide)
    | blank label =>
      have := (hliteral value).symm.trans (hheads.trans (hblank label))
      cases this
    | literal value' => rw [Literal.eq_of_text_eq ha hb h]

/-- Terms compare equal just if their canonical forms are equal. -/
theorem compare_eq_eq_iff {a b : Term} : a.compare b = .eq ↔ a.canonical = b.canonical := by
  show Bytes.compare (encode a.canonical) (encode b.canonical) = .eq ↔ _
  rw [Std.LawfulEqCmp.compare_eq_iff_eq]
  constructor
  · intro h
    have hdecode := congrArg Utf8.decode? h
    rw [Utf8.decode?_encode, Utf8.decode?_encode] at hdecode
    exact Option.some.inj hdecode
  · exact congrArg encode

theorem eq_of_compare_eq {a b : Term} (ha : a.isUnambiguous) (hb : b.isUnambiguous)
    (h : a.compare b = .eq) : a = b :=
  eq_of_canonical_eq ha hb (compare_eq_eq_iff.1 h)

end Term

namespace Statement

theorem of_isUnambiguous {s : Statement} (h : s.isUnambiguous) :
    (∀ name ∈ s.graph, name.isUnambiguous) ∧ s.subject.isUnambiguous ∧ s.predicate.isUnambiguous
      ∧ s.object.isUnambiguous := by
  obtain ⟨graph, subject, predicate, object⟩ := s
  rw [isUnambiguous, terms, List.all_append, Bool.and_eq_true] at h
  simp only [List.all_cons, List.all_nil, Bool.and_true, Bool.and_eq_true] at h
  refine ⟨?_, h.2⟩
  rintro name rfl
  exact List.all_eq_true.1 h.1 name List.mem_cons_self

/-- Among statements of unambiguous terms, none but the same compare equal. -/
theorem eq_of_compare_eq {a b : Statement} (ha : a.isUnambiguous) (hb : b.isUnambiguous)
    (h : a.compare b = .eq) : a = b := by
  obtain ⟨hgraph, hsubject, hpredicate, hobject⟩ := of_isUnambiguous ha
  obtain ⟨hgraph', hsubject', hpredicate', hobject'⟩ := of_isUnambiguous hb
  rw [compare, Ordering.then_eq_eq, Ordering.then_eq_eq, Ordering.then_eq_eq] at h
  obtain ⟨hgraphs, hsubjects, hpredicates, hobjects⟩ := h
  have hsame : a.graph = b.graph := by
    revert hgraph hgraph' hgraphs
    cases a.graph with
    | none =>
      cases b.graph with
      | none => exact fun _ _ _ => rfl
      | some name => exact fun _ _ h => nomatch h
    | some name =>
      cases b.graph with
      | none => exact fun _ _ h => nomatch h
      | some name' =>
        intro h h' heq
        rw [Term.eq_of_compare_eq (h name rfl) (h' name' rfl) heq]
  obtain ⟨graph, subject, predicate, object⟩ := a
  obtain ⟨graph', subject', predicate', object'⟩ := b
  cases hsame
  cases Term.eq_of_compare_eq hsubject hsubject' hsubjects
  cases Term.eq_of_compare_eq hpredicate hpredicate' hpredicates
  cases Term.eq_of_compare_eq hobject hobject' hobjects
  rfl

/-- Sorted statements of unambiguous terms depend on the statements alone. -/
theorem sort_eq_of_perm {ss ss' : List Statement} (h : ss.Perm ss')
    (hss : ∀ s ∈ ss, s.isUnambiguous) : sort ss = sort ss' := by
  have hperm : (sort ss).Perm (sort ss') := (sort_perm ss).trans (h.trans (sort_perm ss').symm)
  refine hperm.eq_of_pairwise ?_ (pairwise_sort ss) (pairwise_sort ss')
  intro a b ha hb hab hba
  apply eq_of_compare_eq (hss a (mem_sort.1 ha)) (hss b (h.mem_iff.2 (mem_sort.1 hb)))
  exact Std.OrientedCmp.isLE_antisymm hab hba

/-! ## Ties -/

theorem compareGraphs_eq_eq_iff {a b : Option Term} :
    compareGraphs a b = .eq ↔ a.map Term.canonical = b.map Term.canonical := by
  cases a with
  | none => cases b <;> simp [compareGraphs]
  | some a =>
    cases b with
    | none => simp [compareGraphs]
    | some b =>
      show a.compare b = .eq ↔ some a.canonical = some b.canonical
      rw [Option.some_inj, Term.compare_eq_eq_iff]

/-- Statements compare equal just if all of their terms have the same canonical forms. -/
theorem compare_eq_eq_iff {a b : Statement} :
    a.compare b = .eq ↔ a.graph.map Term.canonical = b.graph.map Term.canonical
      ∧ a.subject.canonical = b.subject.canonical ∧ a.predicate.canonical = b.predicate.canonical
      ∧ a.object.canonical = b.object.canonical := by
  simp only [compare, Ordering.then_eq_eq, compareGraphs_eq_eq_iff, Term.compare_eq_eq_iff]

/-- Sorting keeps the order of the statements that compare equal to one of them. -/
theorem filter_sort (s : Statement) (ss : List Statement) :
    (sort ss).filter (fun t => s.compare t = .eq) = ss.filter (fun t => s.compare t = .eq) := by
  -- They are in order among themselves, so a stable sort leaves them in the order that they have.
  have hties : (ss.filter fun t => s.compare t = .eq).Pairwise fun a b => (a.compare b).isLE := by
    rw [List.pairwise_filter]
    apply List.pairwise_of_forall
    intro a b ha hb
    have ha : a.compare s = .eq := Std.OrientedCmp.eq_comm.1 (of_decide_eq_true ha)
    rw [Std.TransCmp.eq_trans ha (of_decide_eq_true hb)]
    rfl
  have hsublist : (ss.filter fun t => s.compare t = .eq).Sublist (sort ss) := by
    apply List.sublist_mergeSort
    · intro a b c hab hbc
      exact Std.TransCmp.isLE_trans hab hbc
    · exact isLE_or_isLE
    · exact hties
    · exact List.filter_sublist
  have hkept := hsublist.filter fun t => s.compare t = .eq
  rw [List.filter_filter, List.filter_congr fun t _ => Bool.and_self _] at hkept
  exact (hkept.eq_of_length ((sort_perm ss).filter _).length_eq.symm).symm

/-- The comparison of statements orders them up to ties, and what ties are of the same canonical
forms in every place. The default graph comes first. Unambiguous statements tie with themselves
alone. Sorting arranges any statements in this order and leaves ties in the order that they had. -/
theorem isOrder_compare :
    (∀ a b : Statement, b.compare a = (a.compare b).swap)
      ∧ (∀ a b c : Statement, a.compare b ≠ .gt → b.compare c ≠ .gt → a.compare c ≠ .gt)
      ∧ (∀ a b : Statement, a.compare b = .eq ↔
          a.graph.map Term.canonical = b.graph.map Term.canonical
            ∧ a.subject.canonical = b.subject.canonical
            ∧ a.predicate.canonical = b.predicate.canonical
            ∧ a.object.canonical = b.object.canonical)
      ∧ (∀ a b : Statement, a.graph = none → b.graph ≠ none → a.compare b = .lt)
      ∧ (∀ a b : Statement, a.isUnambiguous → b.isUnambiguous → (a.compare b = .eq ↔ a = b))
      ∧ ∀ ss : List Statement, (sort ss).Perm ss
          ∧ (sort ss).Pairwise (fun a b => a.compare b ≠ .gt)
          ∧ ∀ s : Statement, (sort ss).filter (fun t => s.compare t = .eq)
            = ss.filter (fun t => s.compare t = .eq) := by
  refine ⟨fun a b => Std.OrientedCmp.eq_swap, ?_, fun a b => compare_eq_eq_iff, ?_, ?_, ?_⟩
  · intro a b c hab hbc
    rw [ne_eq, ← Ordering.isLE_iff_ne_gt] at hab hbc ⊢
    exact Std.TransCmp.isLE_trans hab hbc
  · intro a b ha hb
    obtain ⟨name, hname⟩ := Option.ne_none_iff_exists'.1 hb
    rw [compare, ha, hname]
    rfl
  · intro a b ha hb
    constructor
    · exact eq_of_compare_eq ha hb
    · rintro rfl
      exact Std.ReflCmp.compare_self
  · intro ss
    refine ⟨sort_perm ss, (pairwise_sort ss).imp ?_, fun s => filter_sort s ss⟩
    intro a b hab
    rwa [ne_eq, ← Ordering.isLE_iff_ne_gt]

/-- An IRI that reads like a label ties with it and is no greater than what the label comes before.
Tags and datatypes within the quotes are told from those behind them. -/
theorem isOrder_compare_quotes :
    (Statement.mk none (.iri "_:x") (.iri "p:") (.blank "x")).compare
        ⟨some (.blank "x"), .blank "a", .iri "p:", .blank "x"⟩ ≠ .gt
      ∧ (Statement.mk none (.blank "x") (.iri "p:") (.blank "x")).compare
        ⟨some (.blank "x"), .blank "a", .iri "p:", .blank "x"⟩ = .lt
      ∧ (Statement.mk none (.iri "s:") (.iri "p:") (.literal (.simple "a\"^^<d:>"))).compare
        ⟨none, .iri "s:", .iri "p:", .literal (.typed "a" "d:" (by decide))⟩ ≠ .eq
      ∧ (Statement.mk none (.iri "s:") (.iri "p:") (.literal (.tagged "a\"@en" "en"))).compare
        ⟨none, .iri "s:", .iri "p:", .literal (.tagged "a" "en")⟩ ≠ .eq := by
  obtain ⟨-, htrans, -, hdefault, hstrict, -⟩ := isOrder_compare
  refine ⟨?_, hdefault _ _ rfl nofun, ?_, ?_⟩
  · apply htrans _ ⟨none, .blank "x", .iri "p:", .blank "x"⟩
    · decide +kernel
    · decide +kernel
  · rw [ne_eq, hstrict _ _ (by decide) (by decide)]
    decide
  · rw [ne_eq, hstrict _ _ (by decide) (by decide)]
    decide

end Statement
end TidyTrig
