import TidyTrig.Proofs.Malformed
import TidyTrig.Proofs.Sink.Watching

/-!
# What validation reports, and what it leaves

Markers are cleared before the first problem is known, so nothing may fail after that. It does not:
what a file holds and what IRI is the base are found out before, and reading on never fails. A
validation that fails thus leaves the former markers, and one that does not leaves its own
(`validate_all_or_nothing`). These all have a place: a line, and for an error the column.
-/

namespace TidyTrig

open Trig Utf8

/-! ## Places of problems -/

section

variable (labels : Nat → String) {base : Option Iri} {bytes : Bytes} {p : Problem}

/-- The parser knows where it is. -/
theorem column_nonneg_of_mem_parserErrors (h : p ∈ parserErrors labels base bytes) :
    0 ≤ p.column := by
  obtain ⟨e, he, hproblem⟩ := List.mem_filterMap.1 h
  have hyielded := Parser.isYielded_close labels _ e he
  cases hyielded <;> cases hproblem <;> exact Int.natCast_nonneg _

theorem column_nonneg_of_mem_lateErrors {errors : List Problem} (h : p ∈ lateErrors bytes errors) :
    0 ≤ p.column := by
  unfold lateErrors at h
  split at h
  · split at h
    · cases h
    · rw [List.mem_singleton.1 h]
      exact Int.natCast_nonneg _
  · cases h

/-- Errors have a column, and warnings have none. -/
theorem column_ne_unknown_iff {warnsUnused : Bool}
    (h : p ∈ problemsOf (readAll labels base warnsUnused bytes)) :
    p.column ≠ Problem.unknownColumn ↔ p.isError = true := by
  obtain ⟨warnings, hproblems, hwarnings, -⟩ :=
    problemsOf_readAll_eq_append labels base warnsUnused bytes
  rw [hproblems, List.mem_append, List.mem_append] at h
  have hknown (hcolumn : 0 ≤ p.column) : p.column ≠ Problem.unknownColumn := by
    unfold Problem.unknownColumn
    omega
  rcases h with (h | h) | h
  · refine iff_of_true (hknown (column_nonneg_of_mem_parserErrors labels h)) ?_
    simp [Problem.isError, kind_of_mem_parserErrors labels h]
  · refine iff_of_true (hknown (column_nonneg_of_mem_lateErrors h)) ?_
    simp [Problem.isError, kind_of_mem_lateErrors h]
  · -- The rest are warnings, which are about a line.
    obtain ⟨hkind, hcolumn, -⟩ := hwarnings p h
    simp [Problem.isError, hkind, hcolumn]

end

/-! ## Places of diagnostics -/

/-- Whether a diagnostic has a place in every document: a line, and the column if it is an error. -/
def Diagnostic.IsPlaced (d : Diagnostic) : Prop :=
  1 ≤ d.line ∧ (d.column.isSome = true ↔ d.severity = .error)

theorem Diagnostic.isPlaced_ofProblem {p : Problem}
    (h : p.column ≠ Problem.unknownColumn ↔ p.isError = true) : (ofProblem p).IsPlaced := by
  refine ⟨?_, ?_⟩
  · show 1 ≤ (max p.line 1).toNat
    omega
  · rw [severity_ofProblem_iff, ← h, ofProblem]
    by_cases hcolumn : p.column = Problem.unknownColumn <;> simp [hcolumn]

/-- Each diagnostic stands for a problem before the end. -/
theorem mem_diagnosticsOf {events : List Event} {d : Diagnostic} :
    d ∈ diagnosticsOf events
      ↔ ∃ p ∈ problemsOf (events.takeWhile (!·.isEnd)), Diagnostic.ofProblem p = d := by
  rw [diagnosticsOf, List.mem_eraseDups, List.mem_map]

/-- Of several like each other the first is kept. -/
theorem nodup_eraseDups {α : Type} [DecidableEq α] (as : List α) : as.eraseDups.Nodup := by
  match as with
  | [] => exact List.nodup_nil
  | a :: rest =>
    rw [List.eraseDups_cons, List.nodup_cons]
    refine ⟨?_, nodup_eraseDups (rest.filter fun b => !b == a)⟩
    simp [List.mem_eraseDups]
termination_by as.length
decreasing_by exact Nat.lt_succ_of_le (List.length_filter_le _ rest)

/-! ## What is validated -/

/-- Content that is at hand, or a file on disk. -/
inductive Subject where
  | content (bytes : Bytes)
  | file (disk : Disk) (path : String)

namespace Subject

/-- The bytes to validate, if they can be had. -/
def bytes? : Subject → Except Failure Bytes
  | .content bytes => .ok bytes
  | .file disk path =>
    (disk.read path).mapError fun fault => .document (.access path fault.message)

variable {σ : Type} [MarkerStore σ]

/-- Replaces the markers of what is validated. -/
def validate (labels : Nat → String) (s : ValidateSettings) : Subject →
    EStateM Failure σ Report
  | .content bytes => TidyTrig.validate labels s bytes
  | .file disk path => validateFile labels s disk path

variable {subject : Subject} {labels : Nat → String} {s : ValidateSettings} {store : σ} {e : Failure}

theorem validate_of_bytes?_error (h : subject.bytes? = .error e) :
    subject.validate labels s store = .error e store := by
  cases subject with
  | content bytes => cases h
  | file disk path =>
    rw [bytes?] at h
    rw [validate, validateFile]
    cases hread : disk.read path with
    | ok bytes =>
      rw [hread] at h
      cases h
    | error fault =>
      rw [hread] at h
      cases h
      rfl

theorem validate_of_bytes?_ok {bytes : Bytes} (h : subject.bytes? = .ok bytes) :
    subject.validate labels s store = TidyTrig.validate labels s bytes store := by
  cases subject with
  | content bytes =>
    cases h
    rfl
  | file disk path =>
    rw [bytes?] at h
    rw [validate, validateFile]
    cases hread : disk.read path with
    | ok bytes =>
      rw [hread] at h
      cases h
      rfl
    | error fault =>
      rw [hread] at h
      cases h

end Subject

/-! ## What a validation leaves -/

section

variable {σ : Type} [MarkerStore σ]

/-- The ways that a validation can end: the answer and the store that it leaves. -/
inductive Ending (subject : Subject) (s : ValidateSettings) (store : σ) :
    EStateM.Result Failure σ Report → Prop where
  | unreadable {e : Failure} (hbytes : subject.bytes? = .error e) :
      Ending subject s store (.error e store)
  | baseless {e : Failure} (hbase : s.options.base? = .error e) :
      Ending subject s store (.error e store)
  | uncleared {cause : MarkerError} {left : σ}
      (hclear : MarkerStore.clear s.category store = .error cause left) :
      Ending subject s store (.error (.markers cause) left)
  | reported {cleared : σ} {report : Report}
      (hclear : MarkerStore.clear s.category store = .ok () cleared)
      (hnodup : report.diagnostics.Nodup) (hplaced : ∀ d ∈ report.diagnostics, d.IsPlaced)
      (hfailed : report.failedMarkers
        = (offer s.category report.diagnostics cleared).refused.length) :
      Ending subject s store (.ok report (offer s.category report.diagnostics cleared).store)

/-- Once the markers are cleared nothing fails. -/
theorem ending_of_clear (subject : Subject) (labels : Nat → String) {s : ValidateSettings}
    {base : Option Iri} (hbase : s.options.base? = .ok base) (bytes : Bytes) (store : σ) :
    Ending subject s store (validate labels s bytes store) := by
  obtain ⟨events, n, hread, hproblems, hending⟩ := exists_of_read hbase labels bytes
  have hrun : validate labels s bytes store = validateEvents s.category events store := by
    rw [validate, hread]
  rw [hrun]
  -- The events end as readable content does, so that only clearing can be refused.
  cases hclear : MarkerStore.clear s.category store with
  | error cause left =>
    rw [validateEvents_of_clear_error hclear]
    exact .uncleared hclear
  | ok done cleared =>
    rw [validateEvents_of_clear_ok hclear, conclude_of_readable _ hending]
    refine .reported hclear (nodup_eraseDups _) ?_ rfl
    intro d hd
    obtain ⟨p, hp, rfl⟩ := mem_diagnosticsOf.1 hd
    rw [hproblems] at hp
    exact Diagnostic.isPlaced_ofProblem (column_ne_unknown_iff labels (List.mem_of_mem_take hp))

theorem ending_validate (subject : Subject) (labels : Nat → String) (s : ValidateSettings)
    (store : σ) : Ending subject s store (subject.validate labels s store) := by
  cases hbytes : subject.bytes? with
  | error e =>
    rw [Subject.validate_of_bytes?_error hbytes]
    exact .unreadable hbytes
  | ok bytes =>
    rw [Subject.validate_of_bytes?_ok hbytes]
    cases hbase : s.options.base? with
    | error e =>
      have hrun : validate labels s bytes store = .error e store := by
        rw [validate, Trig.read, hbase]
        rfl
      rw [hrun]
      exact .baseless hbase
    | ok base => exact ending_of_clear subject labels hbase bytes store

open LawfulMarkerStore (markers)

variable [LawfulMarkerStore σ]

/-- Validation replaces the markers of its category or fails and leaves all as they were. It fails only
for what cannot be read, for an invalid base, or if clearing is refused. -/
theorem validate_all_or_nothing (subject : Subject) (labels : Nat → String) (s : ValidateSettings)
    (store : σ)
    (hkept : ∀ cause left, MarkerStore.clear s.category store = .error cause left → left = store) :
    match subject.validate labels s store with
    | .error e left => left = store
      ∧ (subject.bytes? = .error e ∨ s.options.base? = .error e
        ∨ ∃ cause, e = .markers cause ∧ MarkerStore.clear s.category store = .error cause store)
    | .ok report left => ∃ cleared, MarkerStore.clear s.category store = .ok () cleared
      ∧ left = (offer s.category report.diagnostics cleared).store
      ∧ report.failedMarkers = (offer s.category report.diagnostics cleared).refused.length
      ∧ markers left = Function.update (markers store) s.category
        (offer s.category report.diagnostics cleared).accepted
      ∧ report.diagnostics.Nodup
      ∧ ∀ d ∈ report.diagnostics, 1 ≤ d.line ∧ (d.column.isSome = true ↔ d.severity = .error) := by
  have hending := ending_validate subject labels s store
  generalize subject.validate labels s store = result at hending
  cases hending with
  | unreadable hbytes => exact ⟨rfl, .inl hbytes⟩
  | baseless hbase => exact ⟨rfl, .inr (.inl hbase)⟩
  | uncleared hclear =>
    obtain rfl := hkept _ _ hclear
    exact ⟨rfl, .inr (.inr ⟨_, rfl, hclear⟩)⟩
  | reported hclear hnodup hplaced hfailed =>
    refine ⟨_, hclear, rfl, hfailed, ?_, hnodup, hplaced⟩
    rw [markers_offer, LawfulMarkerStore.markers_of_clear_ok hclear, Function.update_self,
      Function.update_idem]
    rfl

end

/-- A guarded table that is not cleared is as it was. -/
theorem GuardedMarkers.eq_of_clear_error {category : String} {store left : GuardedMarkers}
    {e : MarkerError} (h : MarkerStore.clear category store = .error e left) : left = store := by
  rw [clear_eq] at h
  split at h
  · cases h
    rfl
  · cases h

/-- A file with an error and a warning, of which the store takes the warning alone. -/
theorem validate_all_or_nothing_refused :
    let former : Diagnostic := ⟨.error, "old", 1, none⟩
    let store : GuardedMarkers := ⟨⟨[("a", former), ("trigfmt.syntax", former)]⟩, none, [.error]⟩
    let disk : Disk := ⟨[⟨["d.trig"], encode "@prefix p: <q:> .\n<s:a> ."⟩], []⟩
    ∃ report left, (Subject.file disk "d.trig").validate (fun _ => "x") {} store = .ok report left
      ∧ report.failedMarkers = 1
      ∧ LawfulMarkerStore.markers left "trigfmt.syntax" = [⟨.warning, "Unused prefix 'p:'", 1, none⟩]
      ∧ LawfulMarkerStore.markers left "a" = [former] := by
  intro former store disk
  have hends := validate_all_or_nothing (.file disk "d.trig") (fun _ => "x") {} store
    fun _ _ => GuardedMarkers.eq_of_clear_error
  have hreport : (ended ((Subject.file disk "d.trig").validate (fun _ => "x") {} store)).1.toOption.map
      Report.diagnostics
      = some [⟨.error, ". is not a valid predicate", 2, some 6⟩,
        ⟨.warning, "Unused prefix 'p:'", 1, none⟩] := by
    decide +kernel
  cases hrun : (Subject.file disk "d.trig").validate (fun _ => "x") {} store with
  | error e left =>
    rw [hrun] at hreport
    cases hreport
  | ok report left =>
    rw [hrun] at hreport hends
    obtain ⟨cleared, hclear, -, hfailed, hmarkers, -⟩ := hends
    have hdiagnostics := Option.some.inj hreport
    cases hclear
    rw [hdiagnostics] at hfailed hmarkers
    refine ⟨report, left, rfl, hfailed, ?_, ?_⟩
    · rw [hmarkers]
      decide +kernel
    · rw [hmarkers]
      decide +kernel

end TidyTrig
