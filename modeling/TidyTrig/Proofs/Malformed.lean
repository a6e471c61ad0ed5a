import TidyTrig.Proofs.Fate
import TidyTrig.Proofs.Formatting
import TidyTrig.Proofs.Trig.Labels
import TidyTrig.Proofs.Validation

/-!
# What is malformed

A document is malformed if reading it finds an error. Formatting stops at the first one, and
validation counts them, up to a limit and among warnings. Both come to the same answer
(`malformed_iff_hasErrors`): bytes that are no text are an error, errors come before warnings, so
that no limit hides them all, and neither labels nor warnings change what errors there are.
-/

namespace TidyTrig

open Trig Utf8

/-! ## The problems of a document -/

section

variable (labels : Nat → String) (base : Option Iri) (bytes : Bytes)

/-- Errors come first, and warnings are no errors. -/
theorem exists_warnings (warnsUnused : Bool) :
    ∃ warnings, problemsOf (readAll labels base warnsUnused bytes)
        = problemsOf (readAll labels base false bytes) ++ warnings
      ∧ ∀ p ∈ warnings, p.isError = false := by
  obtain ⟨warnings, hproblems, hwarnings, -⟩ :=
    problemsOf_readAll_eq_append labels base warnsUnused bytes
  refine ⟨warnings, by rw [hproblems, problemsOf_readAll_eq_errors], ?_⟩
  intro p hp
  rw [Problem.isError, (hwarnings p hp).1]
  rfl

/-- Without warnings, all problems are errors. -/
theorem isError_of_readAll : ∀ p ∈ problemsOf (readAll labels base false bytes), p.isError := by
  intro p hp
  rw [problemsOf_readAll_eq_errors, List.mem_append] at hp
  rw [Problem.isError, hp.elim (kind_of_mem_parserErrors labels) kind_of_mem_lateErrors]
  rfl

/-- Bytes that are no text have an error. -/
theorem problemsOf_ne_nil_of_fault? {fault : Fault} (h : fault? bytes = some fault) :
    problemsOf (readAll labels base false bytes) ≠ [] := by
  rw [problemsOf_readAll_eq_errors, lateErrors, h]
  dsimp only
  split
  · next hline =>
    -- The line has an error of its own.
    obtain ⟨p, hp, -⟩ := List.mem_map.1 hline
    exact List.ne_nil_of_mem (List.mem_append_left _ hp)
  · exact List.append_ne_nil_of_right_ne_nil _ (List.cons_ne_nil _ _)

/-- Labels do not change what errors there are. -/
theorem problemsOf_readAll_eq (labels' : Nat → String) (warnsUnused : Bool) :
    problemsOf (readAll labels base warnsUnused bytes)
      = problemsOf (readAll labels' base warnsUnused bytes) :=
  problemsOf_eq_of_map_shape (map_shape_readAll labels labels' base warnsUnused bytes)

/-- All that is yielded on reading a document can be written, whatever labels were drawn. -/
theorem misfit?_of_mem_readAll (warnsUnused : Bool) :
    ∀ s ∈ statementsOf (readAll labels base warnsUnused bytes), s.misfit? = none := by
  intro s hs
  have hread := map_shape_readAll labels (fun _ => "b") base warnsUnused bytes
  have hshape : s.shape ∈ (statementsOf (readAll (fun _ => "b") base warnsUnused bytes)).map
      Statement.shape := by
    rw [← statementsOf_map_shape, ← hread, statementsOf_map_shape]
    exact List.mem_map_of_mem hs
  obtain ⟨s', hs', hsame⟩ := List.mem_map.1 hshape
  have hwell := isWellFormed_of_mem_readAll (fun _ => rfl) base warnsUnused bytes s' hs'
  rw [Statement.isWellFormed, Bool.and_eq_true, Option.isNone_iff_eq_none] at hwell
  rw [← Statement.misfit?_shape, ← hsame, Statement.misfit?_shape]
  exact hwell.1

end

/-! ## Limits -/

/-- With a limit, the first problems are kept, and the reading still ends. -/
theorem exists_of_limitProblems {events : List Event} (hopen : ∀ e ∈ events, e.isEnd = false)
    (max n : Nat) :
    ∃ kept last, limitProblems max n (events ++ [.finished]) = kept ++ [last]
      ∧ (∀ e ∈ kept, e.isEnd = false) ∧ problemsOf kept = (problemsOf events).take n
      ∧ (last = .finished ∨ ∃ message, last = .aborted message) := by
  have hcuts := limitProblems_cuts events [.finished] rfl max n
  split at hcuts
  · next hle =>
    exact ⟨events, .finished, hcuts, hopen, (List.take_of_length_le hle).symm, .inl rfl⟩
  · obtain ⟨kept, p, rest, hsplit, hcount, hlimit⟩ := hcuts
    refine ⟨kept, _, hlimit, ?_, ?_, .inr ⟨_, rfl⟩⟩
    · intro e he
      exact hopen e (hsplit ▸ List.mem_append_left _ he)
    · rw [hsplit, problemsOf_append, List.take_left' hcount]

/-- A limit that is set is positive. So what is read under some settings are the first problems, one
of them at least if there is any. -/
theorem exists_kept_of_read {settings : ValidateSettings} {base : Option Iri}
    (hbase : settings.options.base? = .ok base) (labels : Nat → String) (content : Bytes) :
    ∃ kept last n, Trig.read labels settings.options content = .ok (kept ++ [last])
      ∧ (∀ e ∈ kept, e.isEnd = false)
      ∧ problemsOf kept
        = (problemsOf (readAll labels base settings.warnsUnused content)).take (n + 1)
      ∧ (last = .finished ∨ ∃ message, last = .aborted message) := by
  obtain ⟨events, hevents, hopen⟩ := exists_of_readAll labels base settings.warnsUnused content
  have hproblems : problemsOf (readAll labels base settings.warnsUnused content)
      = problemsOf events := by
    rw [hevents, problemsOf_append]
    exact List.append_nil _
  rw [Trig.read, hbase, hproblems]
  by_cases hlimit : settings.maxProblems = 0
  · refine ⟨events, .finished, (problemsOf events).length, ?_, hopen,
      (List.take_of_length_le (Nat.le_succ _)).symm, .inl rfl⟩
    rw [← hevents, ValidateSettings.options, if_pos hlimit]
    rfl
  · obtain ⟨max, hmax⟩ := Nat.exists_eq_succ_of_ne_zero hlimit
    obtain ⟨kept, last, hkept, hrest⟩ := exists_of_limitProblems hopen (max + 1) (max + 1)
    refine ⟨kept, last, max, ?_, hrest⟩
    rw [← hkept, ← hevents, ValidateSettings.options, if_neg hlimit, hmax]
    rfl

/-- Before the reading ends come the first problems, and it never ends for what cannot be read on. -/
theorem exists_of_read {settings : ValidateSettings} {base : Option Iri}
    (hbase : settings.options.base? = .ok base) (labels : Nat → String) (content : Bytes) :
    ∃ events n, Trig.read labels settings.options content = .ok events
      ∧ problemsOf (events.takeWhile (!·.isEnd))
        = (problemsOf (readAll labels base settings.warnsUnused content)).take (n + 1)
      ∧ ∀ cause, ending? events ≠ some (.unreadable cause) := by
  obtain ⟨kept, last, n, hread, hopen, hproblems, hlast⟩ := exists_kept_of_read hbase labels content
  have hend : last.isEnd = true := by
    rcases hlast with rfl | ⟨message, rfl⟩ <;> rfl
  have hbefore : (kept ++ [last]).takeWhile (!·.isEnd) = kept := by
    rw [List.takeWhile_append_of_pos (fun e he => by rw [hopen e he]; rfl),
      List.takeWhile_cons_of_neg (by rw [hend]; exact Bool.false_ne_true), List.append_nil]
  have hnever : kept.find? Event.isEnd = none :=
    List.find?_eq_none.2 fun e he => by rw [hopen e he]; exact Bool.false_ne_true
  refine ⟨kept ++ [last], n, hread, by rw [hbefore, hproblems], ?_⟩
  intro cause
  rw [ending?, List.find?_append, hnever, Option.none_or, List.find?_cons_of_pos hend]
  rcases hlast with rfl | ⟨message, rfl⟩ <;> simp

/-! ## Validation -/

theorem Report.hasErrors_iff (r : Report) :
    r.hasErrors = true ↔ ∃ d ∈ r.diagnostics, d.severity = .error := by
  rw [hasErrors, decide_eq_true_iff, errors, count, List.countP_pos_iff]
  simp only [decide_eq_true_iff]

theorem severity_ofProblem_iff (p : Problem) :
    (Diagnostic.ofProblem p).severity = .error ↔ p.isError = true := by
  obtain ⟨kind, message, line, column⟩ := p
  cases kind with
  | warning => exact iff_of_false Severity.noConfusion Bool.false_ne_true
  | error | fatal => exact iff_of_true rfl rfl

/-- The diagnostics of a document tell of an error just if one of its problems is one. -/
theorem exists_error_iff (events : List Event) :
    (∃ d ∈ diagnosticsOf events, d.severity = .error)
      ↔ ∃ p ∈ problemsOf (events.takeWhile (!·.isEnd)), p.isError := by
  simp only [diagnosticsOf, List.mem_eraseDups, List.mem_map, exists_exists_and_eq_and,
    severity_ofProblem_iff]

section

variable {σ : Type} [MarkerStore σ] {settings : ValidateSettings} {base : Option Iri}
  (hbase : settings.options.base? = .ok base) {store cleared : σ}
  (hclear : MarkerStore.clear settings.category store = .ok () cleared)
include hbase hclear

/-- Validation reports errors just if there are any, whatever its limit, and whatever the store
accepts. -/
theorem exists_of_validate (labels : Nat → String) (content : Bytes) :
    ∃ report after, validate labels settings content store = .ok report after
      ∧ (report.hasErrors = true ↔ problemsOf (readAll labels base false content) ≠ []) := by
  obtain ⟨events, n, hread, hproblems, hending⟩ := exists_of_read hbase labels content
  obtain ⟨warnings, hwarnings, hnone⟩ := exists_warnings labels base content settings.warnsUnused
  have herrors := isError_of_readAll labels base content
  have hrun : validate labels settings content store
      = validateEvents settings.category events store := by
    rw [validate, hread]
  rw [validateEvents_of_clear_ok hclear, conclude_of_readable _ hending] at hrun
  refine ⟨_, _, hrun, ?_⟩
  rw [Report.hasErrors_iff, exists_error_iff, hproblems, hwarnings]
  generalize problemsOf (readAll labels base false content) = errors at herrors
  constructor
  · rintro ⟨p, hp, hp'⟩ rfl
    -- Only warnings are left.
    have hmem : p ∈ warnings := List.mem_of_mem_take hp
    rw [hnone p hmem] at hp'
    cases hp'
  · intro hne
    obtain ⟨p, later, rfl⟩ := List.exists_cons_of_ne_nil hne
    exact ⟨p, List.mem_cons_self, herrors p List.mem_cons_self⟩

end

/-! ## Formatting -/

section

variable {settings : FormatSettings} {base : Option Iri}
  (hbase : settings.options.base? = .ok base) (labels : Nat → String)
include hbase

/-- A text with a problem has no canonical form. -/
theorem canonicalText?_eq_none {text : String}
    (h : problemsOf (readAll labels base false (encode text)) ≠ []) :
    canonicalText? labels settings text = .ok none := by
  obtain ⟨p, later, hproblems⟩ := List.exists_cons_of_ne_nil h
  have herror := isError_of_readAll labels base (encode text) p
    (by rw [hproblems]; exact List.mem_cons_self)
  obtain ⟨events, hevents, hopen⟩ := exists_of_readAll labels base false (encode text)
  have hp : p ∈ problemsOf events := by
    have hmem : p ∈ problemsOf (events ++ [.finished]) := by
      rw [← hevents, hproblems]
      exact List.mem_cons_self
    rw [problemsOf_append] at hmem
    exact (List.append_nil (problemsOf events)) ▸ hmem
  obtain ⟨w, hcanonical⟩ := canonicalize_of_isError hopen hp herror
    (Writer.isFree_start ⟨settings.indent, settings.usesTypeKeyword⟩)
  rw [canonicalText?_of_base hbase, hevents, hcanonical]

/-- A text without a problem has one. -/
theorem exists_canonicalText {text : String}
    (h : problemsOf (readAll labels base false (encode text)) = []) :
    ∃ out, canonicalText? labels settings text = .ok (some out) := by
  have hfits : ∀ s ∈ (canonicalEntries
      (declarationsOf (readAll labels base false (encode text)))
      (statementsOf (readAll labels base false (encode text)))).filterMap Entry.statement?,
      s.misfit? = none := by
    intro s hs
    rw [filterMap_canonicalEntries] at hs
    exact misfit?_of_mem_readAll labels base (encode text) false s (Statement.mem_sort.1 hs)
  obtain ⟨w, hall⟩ := exists_of_writeAll hfits
    (Writer.isFree_start ⟨settings.indent, settings.usesTypeKeyword⟩)
  refine ⟨decodeLossy w.device.contents, canonicalText?_eq_some_iff.2 ⟨base, w, hbase, ?_, hall, rfl⟩⟩
  rw [h]
  exact fun p hp => absurd hp List.not_mem_nil

/-- All content has a fate, and is malformed just if reading it finds a problem. -/
theorem exists_fate (content : Bytes) :
    ∃ outcome after, Fate labels settings content outcome after
      ∧ (outcome = .malformed ↔ problemsOf (readAll labels base false content) ≠ []) := by
  cases hdecode : decode? content with
  | none =>
    refine ⟨_, _, .undecodable hdecode, iff_of_true rfl ?_⟩
    cases hfault : fault? content with
    | some fault => exact problemsOf_ne_nil_of_fault? labels base content hfault
    | none =>
      obtain ⟨text, rfl⟩ := fault?_eq_none_iff.1 hfault
      rw [decode?_encode] at hdecode
      cases hdecode
  | some text =>
    rw [decode?_eq_some_iff] at hdecode
    by_cases h : problemsOf (readAll labels base false content) = []
    · obtain ⟨out, hout⟩ := exists_canonicalText hbase labels (hdecode ▸ h)
      have hfine : ∀ isChanged, FormatOutcome.formatted isChanged ≠ .malformed := nofun
      by_cases hsame : out = text
      · exact ⟨_, _, .canonical hdecode (hsame ▸ hout), iff_of_false (hfine _) (not_not_intro h)⟩
      · exact ⟨_, _, .rewritten hdecode hout hsame, iff_of_false (hfine _) (not_not_intro h)⟩
    · exact ⟨_, _, .malformed hdecode (canonicalText?_eq_none hbase labels (hdecode ▸ h)),
        iff_of_true rfl h⟩

variable {σ : Type} {doc : Document σ} {state opened : σ} {content : Bytes}
  (hread : doc.read state = .ok content opened)
  (hwrite : ∀ text, ∃ written, doc.write text opened = .ok () written)
include hread hwrite

/-- Formatting does not fail, and finds malformed what has a problem. -/
theorem exists_of_format :
    ∃ outcome left, format labels settings doc state = .ok outcome left
      ∧ (outcome = .malformed ↔ problemsOf (readAll labels base false content) ≠ []) := by
  obtain ⟨outcome, after, hfate, hmalformed⟩ := exists_fate hbase labels content
  obtain ⟨left, hformat, -⟩ := hfate.exists_of_format hread hwrite
  exact ⟨outcome, left, hformat, hmalformed⟩

end

/-! ## Both -/

/-- Formatting and validation agree on what is malformed, whatever labels they draw, whatever the
limit of problems, and whatever markers the store refuses. -/
theorem malformed_iff_hasErrors {σ τ : Type} [MarkerStore τ] (labels labels' : Nat → String)
    {formatting : FormatSettings} {validation : ValidateSettings}
    (hsame : validation.baseIri = formatting.baseIri) {base : Option Iri}
    (hbase : formatting.options.base? = .ok base) {doc : Document σ} {state opened : σ}
    {content : Bytes} (hread : doc.read state = .ok content opened)
    (hwrite : ∀ text, ∃ written, doc.write text opened = .ok () written) {store cleared : τ}
    (hclear : MarkerStore.clear validation.category store = .ok () cleared) :
    ∃ outcome left report after,
      format labels formatting doc state = .ok outcome left
        ∧ validate labels' validation content store = .ok report after
        ∧ (outcome = .malformed ↔ report.hasErrors = true) := by
  have hbase' : validation.options.base? = .ok base := by
    have hoptions : validation.options.baseIri = formatting.options.baseIri := hsame
    rw [← hbase, Options.base?, Options.base?, hoptions]
  obtain ⟨outcome, left, hformat, hmalformed⟩ := exists_of_format hbase labels hread hwrite
  obtain ⟨report, after, hvalidate, herrors⟩ := exists_of_validate hbase' hclear labels' content
  refine ⟨outcome, left, report, after, hformat, hvalidate, ?_⟩
  rw [hmalformed, herrors, problemsOf_readAll_eq labels base content labels' false]

/-- A comment that is no text, with room for one problem in the report and for no error among the
markers. -/
theorem malformed_iff_hasErrors_comment :
    let held : Document Bytes :=
      ⟨fun content => .ok content content, fun text _ => .ok () (encode text)⟩
    ∃ outcome left report after,
      format (fun _ => "x") {} held [byte '#', 0xFF] = .ok outcome left
        ∧ validate (fun _ => "y") { maxProblems := 1 } [byte '#', 0xFF]
          (⟨⟨[("trigfmt.syntax", ⟨.error, "old", 1, none⟩)]⟩, none, [.error]⟩ : GuardedMarkers)
          = .ok report after
        ∧ (outcome = .malformed ↔ report.hasErrors = true) := by
  intro held
  exact malformed_iff_hasErrors (fun _ => "x") (fun _ => "y") rfl rfl rfl
    (fun text => ⟨encode text, rfl⟩) rfl

end TidyTrig
