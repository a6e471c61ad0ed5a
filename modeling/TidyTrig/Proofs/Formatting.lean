import TidyTrig.Editor
import TidyTrig.Proofs.Canonical
import TidyTrig.Proofs.Trig.Yield

/-!
# Formatting keeps what a document says

What is written for a document is read back, if what was announced and yielded on reading it can be
written: each declaration with a name and an IRI that can stand in a directive, and each IRI of a
statement a valid one. `IsWritable` is this condition. Neither part of it holds of every document:
the scan may announce what is no directive, and the parser lets names through that hold characters
which no IRI may hold.
-/

namespace TidyTrig

open Trig Utf8

/-- The events of some options: those of their base, since formatting knows no limit. -/
theorem read_options {settings : FormatSettings} {base : Option Iri}
    (hbase : settings.options.base? = .ok base) (labels : Nat → String) (bytes : Bytes) :
    Trig.read labels settings.options bytes = .ok (readAll labels base false bytes) := by
  rw [Trig.read, hbase]
  rfl

section

variable {labels : Nat → String} {settings : FormatSettings} {text out : String}

/-- The canonical form of a text is made from its events. -/
theorem canonicalText?_of_base {base : Option Iri} (hbase : settings.options.base? = .ok base) :
    canonicalText? labels settings text =
      match canonicalize (readAll labels base false (encode text))
          (Writer.start .unlimited ⟨settings.indent, settings.usesTypeKeyword⟩) with
      | .ok true w => .ok (some (decodeLossy w.device.contents))
      | .ok false _ => .ok none
      | .error e _ => .error e := by
  rw [canonicalText?, read_options hbase]
  rfl

/-- A canonical text is what is written for a document without errors. -/
theorem canonicalText?_eq_some_iff :
    canonicalText? labels settings text = .ok (some out) ↔
      ∃ base w, settings.options.base? = .ok base
        ∧ (∀ p ∈ problemsOf (readAll labels base false (encode text)), p.isError = false)
        ∧ Entry.writeAll (canonicalEntries
            (declarationsOf (readAll labels base false (encode text)))
            (statementsOf (readAll labels base false (encode text))))
          (.start .unlimited ⟨settings.indent, settings.usesTypeKeyword⟩) = .ok () w
        ∧ decodeLossy w.device.contents = out := by
  generalize hstart : Writer.start .unlimited ⟨settings.indent, settings.usesTypeKeyword⟩ = start
  cases hbase : settings.options.base? with
  | error e =>
    have hread : canonicalText? labels settings text = .error e := by
      rw [canonicalText?, Trig.read, hbase]
      rfl
    rw [hread]
    constructor
    · intro h
      cases h
    · rintro ⟨base, w, h, -⟩
      cases h
  | ok base =>
    obtain ⟨events, hevents, hopen⟩ := exists_of_readAll labels base false (encode text)
    have hcanonical := @canonicalText?_of_base labels settings text base hbase
    rw [hevents, hstart] at hcanonical
    have hkinds : problemsOf (events ++ [.finished]) = problemsOf events
        ∧ declarationsOf (events ++ [.finished]) = declarationsOf events
        ∧ statementsOf (events ++ [.finished]) = statementsOf events := by
      simp [Event.problem?, Event.declaration?, Event.statement?]
    obtain ⟨hproblems, hdeclarations, hstatements⟩ := hkinds
    constructor
    · intro h
      rw [hcanonical] at h
      split at h
      · next w hwritten =>
        refine ⟨base, w, rfl, ?_⟩
        rw [hevents, hproblems, hdeclarations, hstatements]
        obtain ⟨herror, hall⟩ := (canonicalize_eq_true_iff hopen).1 hwritten
        exact ⟨herror, hall, Option.some.inj (Except.ok.inj h)⟩
      · cases h
      · cases h
    · rintro ⟨base', w, hsame, hrest⟩
      cases hsame
      rw [hevents, hproblems, hdeclarations, hstatements] at hrest
      obtain ⟨herror, hall, hout⟩ := hrest
      rw [hcanonical, (canonicalize_eq_true_iff hopen).2 ⟨herror, hall⟩, ← hout]

end

/-! ## What can be written -/

/-- Whether what was announced and yielded on reading a document can be written. -/
structure IsWritable (base : Option Iri) (events : List Event) : Prop where
  declarations : ∀ space ∈ declarationsOf events, IsReadable base space
  iris : ∀ s ∈ statementsOf events, ∀ iri ∈ s.iris, isIri iri

/-- Entries that can be written, each for its kind. -/
theorem canonicalEntries_writable {base : Option Iri} {declarations : List Namespace}
    {ss : List Statement} (hdeclarations : ∀ space ∈ declarations, IsReadable base space)
    (hss : ∀ s ∈ ss, s.isSpellable) :
    ∀ entry ∈ canonicalEntries declarations ss, entry.IsReadable base := by
  intro entry he
  rw [canonicalEntries, List.mem_append, List.mem_map, List.mem_map] at he
  rcases he with ⟨space, hspace, rfl⟩ | ⟨s, hs, rfl⟩
  · exact hdeclarations space hspace
  · exact hss s (Statement.mem_sort.1 hs)

section

variable {labels : Nat → String} (hlabels : ∀ n, isLabel (labels n).toList) {base : Option Iri}
  {bytes : Bytes}
include hlabels

/-- Every entry of the canonical form can be written. -/
theorem IsWritable.entries (h : IsWritable base (readAll labels base false bytes)) :
    ∀ entry ∈ canonicalEntries (declarationsOf (readAll labels base false bytes))
      (statementsOf (readAll labels base false bytes)), entry.IsReadable base :=
  canonicalEntries_writable h.declarations fun s hs =>
    Statement.isSpellable_of_isWellFormed
      (isWellFormed_of_mem_readAll hlabels base false bytes s hs) (h.iris s hs)

end

theorem filterMap_canonicalEntries (declarations : List Namespace) (ss : List Statement) :
    (canonicalEntries declarations ss).filterMap Entry.statement? = Statement.sort ss := by
  have hnone : (declarations.map Entry.declaration).filterMap Entry.statement? = [] := by
    rw [List.filterMap_map, List.filterMap_eq_nil_iff]
    exact fun _ _ => rfl
  have hall : ((Statement.sort ss).map Entry.statement).filterMap Entry.statement?
      = Statement.sort ss := by
    rw [List.filterMap_map]
    exact List.filterMap_some
  rw [canonicalEntries, List.filterMap_append, hnone, hall, List.nil_append]

section

variable {labels : Nat → String} (hlabels : ∀ n, isLabel (labels n).toList)
  {settings : FormatSettings} (hindent : isBlankText settings.indent) {text out : String}
  (hout : canonicalText? labels settings text = .ok (some out)) {base : Option Iri}
  (hbase : settings.options.base? = .ok base)
  (hwritable : IsWritable base (readAll labels base false (encode text)))
include hlabels hindent hout hbase hwritable

/-- A canonical text is what a writer writes, and is read back without a problem. -/
theorem exists_of_canonicalText :
    ∃ w, Entry.writeAll (canonicalEntries
          (declarationsOf (readAll labels base false (encode text)))
          (statementsOf (readAll labels base false (encode text))))
        (.start .unlimited ⟨settings.indent, settings.usesTypeKeyword⟩) = .ok () w
      ∧ w.device.contents = encode out
      ∧ ∀ labels', problemsOf (readAll labels' base false (encode out)) = []
        ∧ statementsOf (readAll labels' base false (encode out))
          = Statement.sort (statementsOf (readAll labels base false (encode text))) := by
  obtain ⟨base', w, hsame, -, hall, hdecode⟩ := canonicalText?_eq_some_iff.1 hout
  rw [hbase] at hsame
  cases hsame
  have hentries := hwritable.entries hlabels
  have hread : ∀ labels', ∃ text', w.device.contents = encode text'
      ∧ problemsOf (readAll labels' base false (encode text')) = []
      ∧ statementsOf (readAll labels' base false (encode text'))
        = Statement.sort (statementsOf (readAll labels base false (encode text))) := by
    intro labels'
    have hstart : IsRead labels' base
        (.start .unlimited ⟨settings.indent, settings.usesTypeKeyword⟩) [] :=
      .inl (isClosed_start hindent)
    obtain ⟨w', text', hall', htext, hproblems, hstatements⟩ := hstart.writeAll hentries
    rw [hall] at hall'
    cases hall'
    rw [List.nil_append, filterMap_canonicalEntries] at hstatements
    exact ⟨text', htext, hproblems, hstatements⟩
  have hcontents : w.device.contents = encode out := by
    obtain ⟨text', htext, -⟩ := hread labels
    rw [← hdecode, htext, decodeLossy_encode]
  refine ⟨w, hall, hcontents, ?_⟩
  intro labels'
  obtain ⟨text', htext, hproblems, hstatements⟩ := hread labels'
  rw [← hcontents, htext]
  exact ⟨hproblems, hstatements⟩

/-- What can be written is preserved: the canonical text is read without a problem and yields the
statements of the document in canonical order, whatever labels are drawn. -/
theorem yields_canonicalText (labels' : Nat → String) :
    ∃ events, Yields labels' settings.options (encode out) events
      ∧ problemsOf events = []
      ∧ statementsOf events
        = Statement.sort (statementsOf (readAll labels base false (encode text))) := by
  obtain ⟨w, -, -, hread⟩ := exists_of_canonicalText hlabels hindent hout hbase hwritable
  have hevents := read_options hbase labels' (encode out)
  exact ⟨_, ⟨hevents, Source.answer_of_read labels' hevents⟩, hread labels'⟩

end

/-- A document with an anonymous node, which becomes one with a label. -/
theorem canonicalText?_anonymous :
    canonicalText? (fun _ => "f") {} "PREFIX ex: <http://e/> [] a ex:C ."
      = .ok (some "@prefix ex: <http://e/> .\n\n_:f a ex:C .\n") :=
  eq_ok_of_toOption (by decide +kernel)

theorem isWritable_anonymous : IsWritable none (readAll (fun _ => "f") none false
    (encode "PREFIX ex: <http://e/> [] a ex:C .")) := by
  have hdeclarations : declarationsOf (readAll (fun _ => "f") none false
      (encode "PREFIX ex: <http://e/> [] a ex:C .")) = [⟨"ex", "http://e/"⟩] := by decide +kernel
  refine ⟨?_, by decide +kernel⟩
  rw [hdeclarations, List.forall_mem_singleton]
  exact isReadable_of_isSpellable (by decide +kernel) none

theorem yields_canonicalText_anonymous :
    ∃ events, Yields (fun _ => "g") ({} : FormatSettings).options
        (encode "@prefix ex: <http://e/> .\n\n_:f a ex:C .\n") events
      ∧ problemsOf events = []
      ∧ statementsOf events = Statement.sort (statementsOf (readAll (fun _ => "f") none false
        (encode "PREFIX ex: <http://e/> [] a ex:C ."))) :=
  yields_canonicalText (fun _ => rfl) (by decide) canonicalText?_anonymous rfl isWritable_anonymous
    (fun _ => "g")

/-- What cannot be written is not preserved. The scan takes the quote that the name escapes for the
start of a string, and so finds a directive in the string after it. -/
theorem canonicalText?_escapedQuote :
    canonicalText? (fun _ => "f") {}
        "@prefix ex: <http://e/> .\nex:a\\' ex:p \"' @prefix bad: <http:bad iri> \" .\n"
      = .ok (some ("@prefix ex: <http://e/> .\n@prefix bad: <http:bad iri> .\n\n"
        ++ "<http://e/a'> ex:p \"' @prefix bad: <http:bad iri> \" .\n"))
    ∧ problemsOf (readAll (fun _ => "f") none false
        (encode ("@prefix ex: <http://e/> .\n@prefix bad: <http:bad iri> .\n\n"
          ++ "<http://e/a'> ex:p \"' @prefix bad: <http:bad iri> \" .\n")))
      = [⟨.error, "Invalid IRI code point ' '", 2, 13⟩] :=
  ⟨eq_ok_of_toOption (by decide +kernel), by decide +kernel⟩

/-- A character that names may hold and IRIs may not. -/
def tagCharacter : String := .singleton (Char.ofNat 0xE0001)

/-- A name is not checked for such characters, but what it stands for is written in brackets. -/
theorem canonicalText?_tagCharacter :
    canonicalText? (fun _ => "f") {} ("@prefix ex: <http://e/> .\nex:" ++ tagCharacter ++ " a ex:C .\n")
      = .ok (some ("@prefix ex: <http://e/> .\n\n<http://e/" ++ tagCharacter ++ "> a ex:C .\n"))
    ∧ problemsOf (readAll (fun _ => "f") none false
        (encode ("@prefix ex: <http://e/> .\n\n<http://e/" ++ tagCharacter ++ "> a ex:C .\n")))
      = [⟨.error, "Invalid IRI code point '" ++ tagCharacter ++ "'", 3, 0⟩] :=
  ⟨eq_ok_of_toOption (by decide +kernel), by decide +kernel⟩

end TidyTrig
