import TidyTrig.Trig.Reader

/-!
# Reading on demand

A `Source` yields the events of a document one after the other, as it is asked for them, and reads
no further than it must. It gives the parser the document directive by directive, and asks it for
one result at a time. What it yields altogether is what `read` tells.
-/

namespace TidyTrig.Trig

structure Source where
  input : Bytes
  warnsUnused : Bool
  maxProblems : Option Nat
  parser : Parser
  /-- What the parser has found and was not asked for. -/
  found : List Event
  /-- How many bytes the parser was given. -/
  given : Nat
  /-- The directives that the parser was not given. -/
  directives : List Directive
  /-- The directive to announce when the parser is done with what it was given. -/
  awaiting : Option Directive
  /-- Whether the parser knows that it was given all. -/
  isEnded : Bool
  /-- Whether the parser has told what is wrong with the whole. -/
  isClosed : Bool
  /-- The events that were not asked for. -/
  pending : List Event
  /-- The declarations so far with the lines of their directives. -/
  declared : List (Namespace × Nat)
  /-- The IRIs that the statements so far mention. -/
  mentioned : List String
  /-- The errors that the parser has found so far. -/
  errors : List Event
  /-- How many problems were reported. -/
  problems : Nat
  /-- Whether nothing comes after the pending events. -/
  isFinished : Bool
deriving DecidableEq

namespace Source

/-- A source before it is asked for anything. -/
def start (base : Option Iri) (warnsUnused : Bool) (maxProblems : Option Nat) (input : Bytes) :
    Source where
  input
  warnsUnused
  maxProblems
  parser := .start base
  found := []
  given := 0
  directives := Directive.scan input
  awaiting := none
  isEnded := false
  isClosed := false
  pending := []
  declared := []
  mentioned := []
  errors := []
  problems := 0
  isFinished := false

/-- The source of a document. -/
def ofBytes (o : Options) (input : Bytes) : Except Failure Source :=
  o.base?.map fun base => start base o.warnsUnused o.maxProblems input

/-- Reports a problem, or gives up if it is one too many. What is reported after that is lost. -/
def report (s : Source) (problem : Event) : Source :=
  if s.isFinished then s
  else
    match s.maxProblems.filter (· ≤ s.problems) with
    | some max =>
      { s with
        pending := s.pending ++ [.aborted s!"too many problems (limit {max})"]
        isFinished := true }
    | none => { s with pending := s.pending ++ [problem], problems := s.problems + 1 }

/-- Takes a result of the parser. -/
def take (s : Source) : Event → Source
  | .statement st =>
    { s with pending := s.pending ++ [.statement st], mentioned := s.mentioned ++ st.iris }
  | .problem p => report { s with errors := s.errors ++ [.problem p] } (.problem p)
  -- A parser yields nothing else.
  | _ => s

/-- Announces a directive that the parser has read. -/
def announce (s : Source) (d : Directive) : Source :=
  let space := d.announce s.parser
  { s with
    awaiting := none
    declared := s.declared ++ [(space, lineOf s.input d.start)]
    pending := s.pending ++ [.declaration space] }

/-- Gives the parser the document up to the end of the next directive, or all that is left. -/
def feed (s : Source) : Source :=
  let stop := s.directives.head?.elim s.input.length fun d => max d.stop s.given
  { s with
    parser := s.parser.feed ((s.input.drop s.given).take (stop - s.given))
    given := stop
    directives := s.directives.tail
    awaiting := s.directives.head? }

/-- Tells that the document was read to its end, unless the source has given up. -/
def conclude (s : Source) : Source :=
  if s.isFinished then s else { s with pending := s.pending ++ [.finished], isFinished := true }

/-- Reports what the document as a whole is faulted for, and ends. -/
def finish (s : Source) : Source :=
  let warnings := if s.warnsUnused then unused s.declared s.mentioned else []
  ((undecodable s.input s.errors ++ warnings).foldl report s).conclude

/-- Goes on when the parser has no more results. -/
def proceed (labels : Nat → String) (s : Source) : Source :=
  match s.awaiting with
  | some d => s.announce d
  | none =>
    if s.given < s.input.length then s.feed
    else if !s.isEnded then { s with isEnded := true }
    else if !s.isClosed then { s with isClosed := true, found := s.parser.close labels }
    else s.finish

/-- A step towards the next event. -/
def step (labels : Nat → String) (s : Source) : Source :=
  match s.found with
  | e :: found => take { s with found } e
  | [] =>
    match s.parser.next? labels s.isEnded with
    | some (found, parser) => { s with found, parser }
    | none => s.proceed labels

/-! ## Asking for events -/

/-- How much is left to do, apart from taking what the parser has found. A byte that the parser was
not given counts twice, as giving it is a step and reading it is another. -/
def work (s : Source) : Nat :=
  2 * (s.input.length - s.given) + s.parser.unread.length + 2 * s.directives.length
    + s.awaiting.toList.length + (!s.isEnded).toNat + (!s.isClosed).toNat

@[simp] theorem work_report (s : Source) (problem : Event) : (s.report problem).work = s.work := by
  unfold report
  repeat' split
  all_goals rfl

@[simp] theorem found_report (s : Source) (problem : Event) :
    (s.report problem).found = s.found := by
  unfold report
  repeat' split
  all_goals rfl

@[simp] theorem work_take (s : Source) (e : Event) : (s.take e).work = s.work := by
  cases e with
  | problem p => exact work_report _ _
  | _ => rfl

@[simp] theorem found_take (s : Source) (e : Event) : (s.take e).found = s.found := by
  cases e with
  | problem p => exact found_report _ _
  | _ => rfl

@[simp] theorem isFinished_conclude (s : Source) : s.conclude.isFinished = true := by
  unfold conclude
  split
  · next h => exact h
  · rfl

theorem work_announce {s : Source} {d : Directive} (h : s.awaiting = some d) :
    (s.announce d).work < s.work := by
  simp only [announce, work, h, Option.toList_some, Option.toList_none, List.length_singleton,
    List.length_nil]
  omega

theorem work_feed {s : Source} (hawaiting : s.awaiting = none) (hgiven : s.given < s.input.length) :
    s.feed.work < s.work := by
  unfold feed work
  rw [hawaiting]
  cases s.directives with
  | nil =>
    simp only [List.head?_nil, Option.elim_none, List.tail_nil, Parser.feed, List.length_append,
      List.length_take, List.length_drop, List.length_nil, Option.toList_none]
    omega
  | cons d ds =>
    simp only [List.head?_cons, Option.elim_some, List.tail_cons, Parser.feed, List.length_append,
      List.length_take, List.length_drop, List.length_cons, Option.toList_some, Option.toList_none,
      List.length_nil]
    omega

theorem work_proceed (labels : Nat → String) (s : Source) :
    (s.proceed labels).isFinished ∨ (s.proceed labels).work < s.work := by
  unfold proceed
  split
  · next d hd => exact .inr (work_announce hd)
  · next hawaiting =>
    split
    · next hgiven => exact .inr (work_feed hawaiting hgiven)
    · split
      · next hended =>
        right
        simp only [work, hended, Bool.not_true, Bool.toNat_false, Bool.toNat_true]
        omega
      · split
        · next hclosed =>
          right
          simp only [work, hclosed, Bool.not_true, Bool.toNat_false, Bool.toNat_true]
          omega
        · exact .inl (isFinished_conclude _)

/-- A step ends the source, or leaves less to do, or takes what the parser has found. -/
theorem work_step (labels : Nat → String) (s : Source) :
    (s.step labels).isFinished ∨ (s.step labels).work < s.work
      ∨ (s.step labels).work = s.work ∧ (s.step labels).found.length < s.found.length := by
  unfold step
  split
  · next e found hfound =>
    right; right
    rw [work_take, found_take, hfound]
    exact ⟨rfl, Nat.lt_succ_self _⟩
  · split
    · next found parser hnext =>
      right; left
      have := Parser.length_lt_of_next? hnext
      unfold work
      dsimp only
      omega
    · rcases s.work_proceed labels with h | h
      · exact .inl h
      · exact .inr (.inl h)

/-- The next event, if there is one. -/
def next (labels : Nat → String) (s : Source) : Option Event × Source :=
  match s.pending with
  | e :: pending => (some e, { s with pending })
  | [] => if s.isFinished then (none, s) else next labels (s.step labels)
  termination_by if s.isFinished then (0, 0) else (s.work + 1, s.found.length)
  decreasing_by
    next hopen =>
    rw [if_neg hopen, Prod.lex_def]
    rcases s.work_step labels with hfinished | hwork | ⟨hwork, hfound⟩
    · rw [if_pos hfinished]
      exact .inl (Nat.succ_pos _)
    · split
      · exact .inl (Nat.succ_pos _)
      · exact .inl (Nat.succ_lt_succ hwork)
    · split
      · exact .inl (Nat.succ_pos _)
      · exact .inr ⟨congrArg (· + 1) hwork, hfound⟩

/-- The answer when a source is asked for the `n`-th time, from zero. -/
def answer (labels : Nat → String) (s : Source) : Nat → Option Event
  | 0 => (s.next labels).1
  | n + 1 => answer labels (s.next labels).2 n

end Source
end TidyTrig.Trig
