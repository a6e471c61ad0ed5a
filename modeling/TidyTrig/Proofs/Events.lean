import TidyTrig.Event

/-!
# Events by kind

What a list of events says of one kind alone, in order: its declarations, its statements, its
problems.
-/

namespace TidyTrig

namespace Event

def declaration? : Event → Option Namespace
  | .declaration space => some space
  | _ => none

def statement? : Event → Option Statement
  | .statement s => some s
  | _ => none

def problem? : Event → Option Problem
  | .problem p => some p
  | _ => none

/-- Whether an event is what a parser yields: a statement or a problem. -/
def isParsed : Event → Bool
  | .statement _ | .problem _ => true
  | _ => false

/-- Whether an event is a statement or an error. -/
def isStatementOrError : Event → Bool
  | .statement _ => true
  | .problem p => p.isError
  | _ => false

theorem isParsed_of_isStatementOrError {e : Event} (h : e.isStatementOrError) : e.isParsed := by
  cases e <;> first | rfl | cases h

/-- Whether an event tells how the reading ended. -/
def isEnd : Event → Bool
  | .finished | .aborted _ | .unreadable _ => true
  | _ => false

theorem isEnd_of_isParsed {e : Event} (h : e.isParsed) : e.isEnd = false := by
  cases e <;> first | rfl | cases h

end Event

/-- The declarations among some events. -/
def declarationsOf (events : List Event) : List Namespace := events.filterMap Event.declaration?

/-- The statements among some events. -/
def statementsOf (events : List Event) : List Statement := events.filterMap Event.statement?

/-- The problems among some events. -/
def problemsOf (events : List Event) : List Problem := events.filterMap Event.problem?

section

variable (e : Event) (events later : List Event)

@[simp] theorem declarationsOf_nil : declarationsOf [] = [] := rfl
@[simp] theorem statementsOf_nil : statementsOf [] = [] := rfl
@[simp] theorem problemsOf_nil : problemsOf [] = [] := rfl

@[simp] theorem declarationsOf_cons :
    declarationsOf (e :: events) = e.declaration?.toList ++ declarationsOf events := by
  cases e <;> rfl

@[simp] theorem statementsOf_cons :
    statementsOf (e :: events) = e.statement?.toList ++ statementsOf events := by
  cases e <;> rfl

@[simp] theorem problemsOf_cons :
    problemsOf (e :: events) = e.problem?.toList ++ problemsOf events := by
  cases e <;> rfl

@[simp] theorem declarationsOf_append :
    declarationsOf (events ++ later) = declarationsOf events ++ declarationsOf later :=
  List.filterMap_append

@[simp] theorem statementsOf_append :
    statementsOf (events ++ later) = statementsOf events ++ statementsOf later :=
  List.filterMap_append

@[simp] theorem problemsOf_append :
    problemsOf (events ++ later) = problemsOf events ++ problemsOf later :=
  List.filterMap_append

end

theorem declarationsOf_of_isParsed {events : List Event} (h : ∀ e ∈ events, e.isParsed) :
    declarationsOf events = [] := by
  rw [declarationsOf, List.filterMap_eq_nil_iff]
  intro e he
  have := h e he
  cases e <;> first | rfl | cases this

/-- Among problems there are no declarations and no statements. -/
theorem declarationsOf_of_problems {events : List Event} (h : ∀ e ∈ events, ∃ p, e = .problem p) :
    declarationsOf events = [] := by
  rw [declarationsOf, List.filterMap_eq_nil_iff]
  intro e he
  obtain ⟨p, rfl⟩ := h e he
  rfl

theorem statementsOf_of_problems {events : List Event} (h : ∀ e ∈ events, ∃ p, e = .problem p) :
    statementsOf events = [] := by
  rw [statementsOf, List.filterMap_eq_nil_iff]
  intro e he
  obtain ⟨p, rfl⟩ := h e he
  rfl

/-- Statements and problems are what a parser yields. -/
theorem statementsOf_filter_isParsed (events : List Event) :
    statementsOf (events.filter Event.isParsed) = statementsOf events := by
  rw [statementsOf, statementsOf, List.filterMap_filter]
  congr 1
  funext e
  cases e <;> rfl

theorem problemsOf_filter_isParsed (events : List Event) :
    problemsOf (events.filter Event.isParsed) = problemsOf events := by
  rw [problemsOf, problemsOf, List.filterMap_filter]
  congr 1
  funext e
  cases e <;> rfl

end TidyTrig
