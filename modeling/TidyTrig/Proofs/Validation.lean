import TidyTrig.Proofs.Basic
import TidyTrig.Proofs.Events
import TidyTrig.Proofs.Marker
import TidyTrig.Validation

/-!
# What a validation cycle does

A cycle clears its category and offers the diagnostics of its document to the store: each once, up
to where the reading ends (`validateEvents_of_clear_ok`). In a history of cycles, the last one of a
category whose clearing was not refused decides what the category holds (`markers_afterCycles`).
-/

namespace TidyTrig

/-! ## The diagnostics of a document -/

/-- How the reading of a document ended, if it was told. -/
def ending? (events : List Event) : Option Event := events.find? Event.isEnd

/-- Whether an event tells that the reader gave up. -/
def Event.isAborted : Event → Bool
  | .aborted _ => true
  | _ => false

/-- The diagnostics for the problems before the end, each of them once. -/
def diagnosticsOf (events : List Event) : List Diagnostic :=
  ((problemsOf (events.takeWhile (!·.isEnd))).map Diagnostic.ofProblem).eraseDups

/-- The diagnostics that are not among those seen before. -/
def unseen (seen : List Diagnostic) (events : List Event) : List Diagnostic :=
  (((problemsOf (events.takeWhile (!·.isEnd))).map Diagnostic.ofProblem).filter (· ∉ seen)).eraseDups

theorem unseen_nil (events : List Event) : unseen [] events = diagnosticsOf events := by
  rw [unseen, diagnosticsOf, List.filter_eq_self.2]
  exact fun d _ => decide_eq_true List.not_mem_nil

/-- What is neither a problem nor an end adds nothing. -/
theorem unseen_cons_of_none (seen : List Diagnostic) {e : Event} (hend : e.isEnd = false)
    (he : e.problem? = none) (rest : List Event) : unseen seen (e :: rest) = unseen seen rest := by
  rw [unseen, List.takeWhile_cons_of_pos (by rw [hend]; rfl), problemsOf_cons, he]
  rfl

/-- A problem that looks like one before adds nothing. -/
theorem unseen_problem_of_mem {seen : List Diagnostic} {p : Problem}
    (h : Diagnostic.ofProblem p ∈ seen) (rest : List Event) :
    unseen seen (.problem p :: rest) = unseen seen rest := by
  rw [unseen, List.takeWhile_cons_of_pos rfl, problemsOf_cons]
  show (List.filter _ (Diagnostic.ofProblem p :: _)).eraseDups = _
  rw [List.filter_cons_of_neg (by simpa using h)]
  rfl

/-- A problem that looks like none before adds its diagnostic, which is seen from then on. -/
theorem unseen_problem_of_not_mem {seen : List Diagnostic} {p : Problem}
    (h : Diagnostic.ofProblem p ∉ seen) (rest : List Event) :
    unseen seen (.problem p :: rest)
      = Diagnostic.ofProblem p :: unseen (seen ++ [Diagnostic.ofProblem p]) rest := by
  rw [unseen, List.takeWhile_cons_of_pos rfl, problemsOf_cons]
  show (List.filter _ (Diagnostic.ofProblem p :: _)).eraseDups = _
  rw [List.filter_cons_of_pos (by simpa using h), List.eraseDups_cons, List.filter_filter, unseen]
  congr 3
  funext d
  rw [Bool.and_comm, ← Bool.decide_coe (!d == Diagnostic.ofProblem p), ← Bool.decide_and]
  simp

/-! ## One cycle -/

section

variable {σ : Type} [MarkerStore σ]

/-- The outcome of a cycle whose document ended this way. -/
def conclude (r : Report) (ending : Option Event) (store : σ) : EStateM.Result Failure σ Report :=
  match ending with
  | some (.unreadable cause) => .error (.input cause) store
  | ending => .ok { r with isAborted := r.isAborted || ending.any Event.isAborted } store

/-- The store that is left, whatever the answer. -/
def storeOf {α ε : Type} : EStateM.Result ε σ α → σ
  | .ok _ store => store
  | .error _ store => store

omit [MarkerStore σ] in
theorem storeOf_conclude (r : Report) (ending : Option Event) (store : σ) :
    storeOf (conclude r ending store) = store := by
  cases ending with
  | none => rfl
  | some e => cases e <;> rfl

omit [MarkerStore σ] in
/-- Only a document that cannot be read on has no report. -/
theorem conclude_of_readable (r : Report) {ending : Option Event}
    (h : ∀ cause, ending ≠ some (.unreadable cause)) (store : σ) :
    conclude r ending store
      = .ok { r with isAborted := r.isAborted || ending.any Event.isAborted } store := by
  cases ending with
  | none => rfl
  | some e =>
    cases e with
    | unreadable cause => exact absurd rfl (h cause)
    | _ => rfl

/-- Each diagnostic that was not reported yet is reported and offered to the store. -/
theorem attachAll_eq (category : String) (events : List Event) (r : Report) (store : σ) :
    attachAll category r events store
      = conclude ⟨r.diagnostics ++ unseen r.diagnostics events,
          r.failedMarkers + (offer category (unseen r.diagnostics events) store).refused.length,
          r.isAborted⟩ (ending? events)
        (offer category (unseen r.diagnostics events) store).store := by
  induction events generalizing r store with
  | nil =>
    show EStateM.Result.ok r store = .ok _ store
    simp [offer, unseen, ending?]
  | cons e rest ih =>
    cases e with
    | declaration space =>
      show attachAll category r rest store = _
      rw [ih, unseen_cons_of_none _ rfl rfl]
      rfl
    | statement s =>
      show attachAll category r rest store = _
      rw [ih, unseen_cons_of_none _ rfl rfl]
      rfl
    | problem p =>
      -- A problem is offered to the store unless its diagnostic was reported before.
      rw [attachAll]
      by_cases hmem : Diagnostic.ofProblem p ∈ r.diagnostics
      · rw [if_pos hmem, ih, unseen_problem_of_mem hmem]
        rfl
      · rw [if_neg hmem, unseen_problem_of_not_mem hmem]
        show EStateM.bind (attach category (Diagnostic.ofProblem p) r) _ store = _
        rw [EStateM.bind, attach]
        cases hcreate : MarkerStore.create category (Diagnostic.ofProblem p) store with
        | ok a store' =>
          rw [offer_of_ok hcreate]
          dsimp only
          rw [ih, List.append_assoc]
          rfl
        | error e store' =>
          rw [offer_of_error hcreate]
          dsimp only
          rw [ih, List.append_assoc, List.length_cons, Nat.add_assoc, Nat.add_comm 1]
          rfl
    | finished =>
      show EStateM.Result.ok r store = .ok _ store
      simp [offer, unseen, Event.isEnd, Event.isAborted]
    | aborted message =>
      show EStateM.Result.ok { r with isAborted := true } store = .ok _ store
      simp [offer, unseen, Event.isEnd, Event.isAborted]
    | unreadable cause => rfl

variable {category : String} {store store' : σ}

/-- A cycle whose category cannot be cleared attaches nothing. -/
theorem validateEvents_of_clear_error {e : MarkerError}
    (h : MarkerStore.clear category store = .error e store') (events : List Event) :
    validateEvents category events store = .error (.markers e) store' :=
  adaptExcept_bind_of_error h

/-- A cycle whose category is cleared reports the diagnostics of its document, whatever the store
accepts of them. -/
theorem validateEvents_of_clear_ok (h : MarkerStore.clear category store = .ok () store')
    (events : List Event) :
    validateEvents category events store
      = conclude ⟨diagnosticsOf events, (offer category (diagnosticsOf events) store').refused.length,
          false⟩ (ending? events) (offer category (diagnosticsOf events) store').store := by
  refine (adaptExcept_bind_of_ok h).trans ?_
  rw [attachAll_eq]
  show conclude ⟨unseen [] events, 0 + (offer category (unseen [] events) store').refused.length,
    false⟩ _ (offer category (unseen [] events) store').store = _
  rw [unseen_nil, Nat.zero_add]

end

/-! ## Histories of cycles -/

/-- A cycle of a category over the events of a document. -/
structure Cycle where
  category : String
  events : List Event

section

variable {σ : Type} [MarkerStore σ]

namespace Cycle

/-- What a cycle answers, and the store that it leaves. -/
def run (c : Cycle) (store : σ) : EStateM.Result Failure σ Report :=
  validateEvents c.category c.events store

/-- The store that a cycle leaves, whatever it answers. -/
def after (c : Cycle) (store : σ) : σ := storeOf (c.run store)

/-- Whether the category of a cycle is cleared. -/
def isCleared (c : Cycle) (store : σ) : Bool :=
  match MarkerStore.clear c.category store with
  | .ok _ _ => true
  | .error _ _ => false

/-- What the store accepts of the diagnostics of a cycle. -/
def accepted (c : Cycle) (store : σ) : List Diagnostic :=
  match MarkerStore.clear c.category store with
  | .ok _ store => (offer c.category (diagnosticsOf c.events) store).accepted
  | .error _ _ => []

end Cycle

/-- The store after some cycles. -/
def afterCycles (store : σ) (cycles : List Cycle) : σ :=
  cycles.foldl (fun store c => c.after store) store

/-- Some cycles, each with the store that it starts from. -/
def history (store : σ) : List Cycle → List (σ × Cycle)
  | [] => []
  | c :: rest => (store, c) :: history (c.after store) rest

/-- The last cycle of a category that was cleared, with the store that it started from. -/
def latest? (store : σ) (cycles : List Cycle) (category : String) : Option (σ × Cycle) :=
  ((history store cycles).filter fun h => h.2.category = category && h.2.isCleared h.1).getLast?

theorem latest?_cons (store : σ) (c : Cycle) (rest : List Cycle) (category : String) :
    latest? store (c :: rest) category
      = (latest? (c.after store) rest category).or
        (if c.category = category && c.isCleared store then some (store, c) else none) := by
  rw [latest?, history, List.filter_cons, latest?]
  dsimp only
  by_cases h : (c.category = category && c.isCleared store) = true
  · rw [if_pos h, if_pos h, List.getLast?_cons]
    cases List.getLast? _ <;> rfl
  · rw [if_neg h, if_neg h, Option.or_none]

open LawfulMarkerStore (markers)

variable [LawfulMarkerStore σ]

/-- What one cycle does to the markers: a cleared category holds what was accepted, and all else
stays. -/
theorem Cycle.markers_after (c : Cycle) (store : σ) :
    markers (c.after store)
      = if c.isCleared store then Function.update (markers store) c.category (c.accepted store)
        else markers store := by
  unfold after run isCleared accepted
  cases hclear : MarkerStore.clear c.category store with
  | ok a store' =>
    rw [validateEvents_of_clear_ok hclear, storeOf_conclude, markers_offer,
      LawfulMarkerStore.markers_of_clear_ok hclear, Function.update_self, Function.update_idem]
    rfl
  | error e store' =>
    rw [validateEvents_of_clear_error hclear]
    exact LawfulMarkerStore.markers_of_clear_error hclear

/-- The last cycle of a category decides what it holds. -/
theorem markers_afterCycles (store : σ) (cycles : List Cycle) (category : String) :
    markers (afterCycles store cycles) category
      = (latest? store cycles category).elim (markers store category) fun h => h.2.accepted h.1 := by
  induction cycles generalizing store with
  | nil => rfl
  | cons c rest ih =>
    show markers (afterCycles (c.after store) rest) category = _
    rw [ih, latest?_cons, c.markers_after]
    cases latest? (c.after store) rest category with
    | some later => rfl
    | none =>
      rw [Option.none_or]
      cases hcleared : c.isCleared store with
      | false =>
        rw [Bool.and_false]
        rfl
      | true =>
        rw [Bool.and_true, if_pos rfl]
        by_cases hcategory : c.category = category
        · subst hcategory
          rw [decide_eq_true rfl, if_pos rfl]
          exact Function.update_self _ _ _
        · rw [decide_eq_false hcategory, if_neg Bool.false_ne_true]
          exact Function.update_of_ne (Ne.symm hcategory) _ _

/-- Markers are replaced and never mixed. After any history a category holds what was accepted in
the last of its cycles that was cleared, or what it held before. Each cycle reports every
diagnostic of its document once and counts those refused, unless its category cannot be cleared,
when nothing changes, or its document cannot be read on. -/
theorem markers_replaced (store : σ) (cycles : List Cycle) :
    (∀ category, markers (afterCycles store cycles) category
      = (latest? store cycles category).elim (markers store category) fun h => h.2.accepted h.1)
    ∧ ∀ h ∈ history store cycles,
      (∀ e left, MarkerStore.clear h.2.category h.1 = .error e left →
        h.2.run h.1 = .error (.markers e) left ∧ markers left = markers h.1)
      ∧ ∀ cleared, MarkerStore.clear h.2.category h.1 = .ok () cleared →
        let offered := offer h.2.category (diagnosticsOf h.2.events) cleared
        h.2.accepted h.1 = offered.accepted
        ∧ (∀ cause, ending? h.2.events = some (.unreadable cause) →
          h.2.run h.1 = .error (.input cause) offered.store)
        ∧ ((∀ cause, ending? h.2.events ≠ some (.unreadable cause)) →
          h.2.run h.1 = .ok ⟨diagnosticsOf h.2.events, offered.refused.length,
            (ending? h.2.events).any Event.isAborted⟩ offered.store) := by
  refine ⟨markers_afterCycles store cycles, ?_⟩
  rintro ⟨start, c⟩ -
  refine ⟨?_, ?_⟩
  · intro e left hclear
    exact ⟨validateEvents_of_clear_error hclear c.events,
      LawfulMarkerStore.markers_of_clear_error hclear⟩
  · intro cleared hclear
    have hrun : c.run start = _ := validateEvents_of_clear_ok hclear c.events
    refine ⟨?_, ?_, ?_⟩
    · rw [Cycle.accepted, hclear]
    · intro cause hending
      rw [hrun, hending]
      rfl
    · intro hending
      rw [hrun]
      exact conclude_of_readable _ hending _

/-- The store refuses a marker of the first cycle, and cannot be cleared for the last. -/
theorem markers_replaced_twice :
    let former : Diagnostic := ⟨.warning, "old", 1, none⟩
    let store : MoodyMarkers := ⟨⟨[("a", former), ("b", former)]⟩, 0,
      fun n => if n = 2 ∨ n = 6 then some (.rejected "full") else none⟩
    let first : Cycle := ⟨"a", [.problem ⟨.error, "dot", 0, -1⟩, .problem ⟨.fatal, "dot", 1, -1⟩,
      .problem ⟨.error, "end", 2, 3⟩, .problem ⟨.warning, "unused", 3, -1⟩, .aborted "limit",
      .problem ⟨.error, "late", 9, 9⟩]⟩
    let cycles : List Cycle := [first,
      ⟨"c", [.problem ⟨.error, "dot", 1, 1⟩, .unreadable "gone"]⟩,
      ⟨"a", [.problem ⟨.error, "new", 1, 1⟩, .finished]⟩]
    markers (afterCycles store cycles) "a"
        = [⟨.error, "dot", 1, none⟩, ⟨.warning, "unused", 3, none⟩]
      ∧ markers (afterCycles store cycles) "b" = [former]
      ∧ markers (afterCycles store cycles) "c" = [⟨.error, "dot", 1, some 1⟩]
      ∧ ∃ left, first.run store = .ok ⟨[⟨.error, "dot", 1, none⟩, ⟨.error, "end", 2, some 3⟩,
        ⟨.warning, "unused", 3, none⟩], 1, true⟩ left := by
  intro former store first cycles
  obtain ⟨hmarkers, hruns⟩ := markers_replaced store cycles
  refine ⟨(hmarkers "a").trans (by decide +kernel), (hmarkers "b").trans (by decide +kernel),
    (hmarkers "c").trans (by decide +kernel), ?_⟩
  obtain ⟨-, -, hreport⟩ := (hruns (store, first) List.mem_cons_self).2 _ rfl
  exact ⟨_, hreport nofun⟩

end

end TidyTrig
