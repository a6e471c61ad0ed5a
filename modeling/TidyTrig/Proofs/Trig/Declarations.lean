import TidyTrig.Proofs.Trig.Announcing
import TidyTrig.Proofs.Trig.Declaring

/-!
# Declarations survive writing

A scan mistakes a line for a directive only if its subject is a label with a dot
(`mistaken?_of_hasDot`). Without such subjects, what was declared is announced when the text that was
written is read, one for one and in order (`yields_declared_writeAll`). No limit hides a
declaration, as the text has no errors and warnings come after all else.
-/

namespace TidyTrig

open Utf8

/-- Whether a term is a label with a dot in it. -/
def Term.hasDot : Term → Bool
  | .blank label => '.' ∈ label.toList
  | _ => false

namespace Trig

/-! ## What is mistaken -/

/-- A keyword at the end of a label has a dot before it. -/
theorem endsLikeKeyword_of_not_mem {label : String} (h : '.' ∉ label.toList) :
    endsLikeKeyword label = false := by
  by_contra hends
  obtain ⟨front, key, hlabel, -⟩ :=
    exists_keyword_of_endsLikeKeyword (Bool.not_eq_false _ ▸ hends)
  have hdot : byte '.' ∈ encode label := by simp [hlabel]
  exact h ((byte_mem_encode_iff (by decide)).1 hdot)

theorem mistaken?_of_hasDot {s : Statement} (h : s.subject.hasDot = false)
    (inForce : List Namespace) (usesKeyword : Bool) : mistaken? inForce usesKeyword s = none := by
  unfold mistaken?
  split
  · next label iri hsubject _ =>
    rw [hsubject, Term.hasDot, decide_eq_false_iff_not] at h
    simp [endsLikeKeyword_of_not_mem h]
  · rfl

/-- The declaration that a writer is given. -/
def Entry.declaration? : Entry → Option Namespace
  | .declaration space => some space
  | .statement _ => none

/-- Where no subject has a dot, a scan finds what was declared and nothing else. -/
theorem found_eq_filterMap {entries : List Entry}
    (h : ∀ s, .statement s ∈ entries → s.subject.hasDot = false) (usesKeyword : Bool)
    (inForce : List Namespace) (former : Option (Option Term × Term)) :
    found usesKeyword inForce former entries = entries.filterMap Entry.declaration? := by
  induction entries generalizing inForce former with
  | nil => rfl
  | cons entry entries ih =>
    have ih := ih fun s hs => h s (List.mem_cons_of_mem _ hs)
    cases entry with
    | declaration space =>
      rw [found, ih]
      rfl
    | statement s =>
      rw [found, ih, mistaken?_of_hasDot (h s List.mem_cons_self), Option.toList_none, ite_self,
        List.nil_append]
      rfl

/-! ## What is announced -/

theorem hasScheme_of_isSpellable {space : Namespace} (h : space.isSpellable) :
    hasScheme space.iri := by
  rw [Namespace.isSpellable, Bool.and_eq_true] at h
  obtain ⟨i, hi⟩ := exists_of_isIri h.2
  exact hasScheme_of_parse hi

/-- Without errors no limit hides a declaration. -/
theorem declarationsOf_limitProblems (labels : Nat → String) (base : Option Iri)
    (warnsUnused : Bool) {bytes : Bytes} (h : problemsOf (readAll labels base false bytes) = [])
    (max n : Nat) :
    declarationsOf (limitProblems max n (readAll labels base warnsUnused bytes))
      = declarationsOf (readAll labels base warnsUnused bytes) := by
  obtain ⟨front, warnings, hplain, hwarned, hwarnings⟩ :=
    exists_warnings_of_readAll labels base bytes warnsUnused
  have hfront : problemsOf front = [] := by
    rw [hplain, problemsOf_append, List.append_eq_nil_iff] at h
    exact h.1
  have hlast : declarationsOf (warnings ++ [.finished]) = [] := by
    rw [declarationsOf_append,
      declarationsOf_of_problems fun e he => (hwarnings e he).imp fun _ => And.left]
    rfl
  -- Only what comes after the last declaration can be cut.
  have hcut : declarationsOf (limitProblems max n (warnings ++ [.finished])) = [] :=
    List.prefix_nil.1 (hlast ▸ declarationsOf_limitProblems_prefix _ max n)
  rw [hwarned, List.append_assoc, limitProblems_append hfront, declarationsOf_append,
    declarationsOf_append, hcut, hlast]

/-- What is declared to a writer is announced on reading what it wrote, one for one and in order,
however declarations and statements follow each other: rebinding a name or repeating a declaration
is announced again. Labels with dots may stand everywhere but as subjects. -/
theorem yields_declared_writeAll (labels : Nat → String) {layout : Layout}
    (hindent : isBlankText layout.indent) {entries : List Entry}
    (hentries : ∀ entry ∈ entries, entry.isSpellable)
    (hdots : ∀ s, .statement s ∈ entries → s.subject.hasDot = false) (warnsUnused : Bool)
    (maxProblems : Option Nat) :
    ∃ w events, Entry.writeAll entries (.start .unlimited layout) = .ok () w
      ∧ Yields labels ⟨none, warnsUnused, maxProblems⟩ w.device.contents events
      ∧ declarationsOf events = entries.filterMap Entry.declaration? := by
  have hreadable : ∀ entry ∈ entries, entry.IsReadable none := fun entry he =>
    Entry.isReadable_of_isSpellable (hentries entry he) none
  have hstart : IsRead labels none (.start .unlimited layout) [] := .inl (isClosed_start hindent)
  obtain ⟨w, text, hwrite, htext, hproblems, -⟩ := hstart.writeAll hreadable
  rw [← htext] at hproblems
  have hspaces : Directive.spaces true w.device.contents = entries.filterMap Entry.declaration? := by
    rw [← Directive.map_space_scan, spaces_writeAll hindent hreadable hwrite,
      found_eq_filterMap hdots]
  -- Each of them has a scheme, so it is announced as it was written.
  have hall : declarationsOf (readAll labels none warnsUnused w.device.contents)
      = entries.filterMap Entry.declaration? := by
    rw [← hspaces]
    apply declarationsOf_readAll_of_hasScheme
    intro space hspace
    rw [hspaces] at hspace
    obtain ⟨entry, he, hdeclared⟩ := List.mem_filterMap.1 hspace
    have hspellable := hentries entry he
    cases entry with
    | declaration space' =>
      cases hdeclared
      exact hasScheme_of_isSpellable hspellable
    | statement s => cases hdeclared
  have hbase : Options.base? ⟨none, warnsUnused, none⟩ = .ok none := rfl
  cases maxProblems with
  | none => exact ⟨w, _, hwrite, yields_readAll labels hbase warnsUnused _, hall⟩
  | some max =>
    refine ⟨w, _, hwrite, yields_limitProblems labels hbase warnsUnused _ max, ?_⟩
    rw [declarationsOf_limitProblems labels none warnsUnused hproblems, hall]

/-- A prefix with the name of the keyword is declared twice and rebound, around a label of that name
and a string that looks like a directive. -/
theorem yields_declared_writeAll_prefix :
    ∃ w events, Entry.writeAll
        [.declaration ⟨"prefix", "http://p/"⟩, .declaration ⟨"prefix", "http://p/"⟩,
          .statement ⟨some (.blank "g.prefix"), .blank "prefix", .iri "http://p/",
            .literal (.simple "\n@prefix x: <http://x/> .\n")⟩,
          .declaration ⟨"prefix", "http://other/"⟩,
          .statement ⟨none, .iri "http://other/prefix", .iri "http://other/", .iri "http://x/"⟩]
        (.start .unlimited ⟨"\t", false⟩) = .ok () w
      ∧ Yields (fun _ => "f") ⟨none, true, some 0⟩ w.device.contents events
      ∧ declarationsOf events
        = [⟨"prefix", "http://p/"⟩, ⟨"prefix", "http://p/"⟩, ⟨"prefix", "http://other/"⟩] :=
  have hindent : isBlankText (⟨"\t", false⟩ : Layout).indent := by decide +kernel
  yields_declared_writeAll (fun _ => "f") hindent (by decide +kernel)
    (by simp [Term.hasDot]) true (some 0)

end Trig
end TidyTrig
