import TidyTrig.Proofs.Basic
import TidyTrig.Proofs.Trig.Directive
import TidyTrig.Proofs.Trig.Reading
import TidyTrig.Trig.Source

/-!
# What a source yields

A source yields what `read` tells, one event each time that it is asked, and then nothing
(`answer_of_read`). What is still to come from a source is its `outlook`. The invariant of the
proof is that a step does not change it, so that asking only takes the first event of it away.

A limit cuts what comes without it right before the problem that exceeds it
(`answer_ends_once`).
-/

namespace TidyTrig.Trig

namespace Source

/-! ## Reporting under a limit -/

/-- What a source yields if these events are to come, under its limit. -/
def outcome (s : Source) (events : List Event) : List Event :=
  s.pending ++
    if s.isFinished then []
    else
      match s.maxProblems with
      | some max => limitProblems max (max - s.problems) events
      | none => events

theorem outcome_of_isFinished {s : Source} (h : s.isFinished) (events : List Event) :
    s.outcome events = s.pending := by
  rw [outcome, if_pos h, List.append_nil]

/-- An event that is no problem can be told at once. -/
theorem outcome_push {s : Source} (hopen : s.isFinished = false) {e : Event}
    (h : e.problem? = none) (events : List Event) :
    s.outcome (e :: events) = outcome { s with pending := s.pending ++ [e] } events := by
  simp only [outcome, hopen, Bool.false_eq_true, if_false, List.append_assoc,
    List.singleton_append]
  cases s.maxProblems with
  | none => rfl
  | some max => simp only [limitProblems_cons_of_none h]

/-- A problem can be reported at once. -/
theorem outcome_report (s : Source) (p : Problem) (events : List Event) :
    s.outcome (.problem p :: events) = (s.report (.problem p)).outcome events := by
  cases hopen : s.isFinished with
  | true =>
    rw [report, if_pos hopen, outcome_of_isFinished hopen, outcome_of_isFinished hopen]
  | false =>
    rw [report, if_neg (Bool.eq_false_iff.1 hopen)]
    cases hmax : s.maxProblems with
    | none =>
      rw [Option.filter_none]
      simp [outcome, hopen, hmax]
    | some max =>
      by_cases hle : max ≤ s.problems
      · -- The limit is reached, and this problem is one too many.
        have hroom : max - s.problems = 0 := Nat.sub_eq_zero_of_le hle
        rw [Option.filter_some, if_pos (decide_eq_true hle)]
        simp [outcome, hopen, hmax, hroom, limitProblems]
      · have hroom : max - s.problems = (max - (s.problems + 1)) + 1 := by omega
        rw [Option.filter_some, if_neg (by simpa using hle)]
        simp [outcome, hopen, hmax, hroom, limitProblems]

/-- Problems can be reported at once, one after the other. -/
theorem outcome_reports {problems : List Event} (h : ∀ e ∈ problems, ∃ p, e = .problem p)
    (s : Source) (events : List Event) :
    s.outcome (problems ++ events) = (problems.foldl report s).outcome events := by
  induction problems generalizing s with
  | nil => rfl
  | cons e rest ih =>
    obtain ⟨⟨p, rfl⟩, hrest⟩ := List.forall_mem_cons.1 h
    rw [List.cons_append, outcome_report, ih hrest, List.foldl_cons]

/-- That all was read can be told at last. -/
theorem outcome_finished (s : Source) : s.outcome [.finished] = s.conclude.outcome [] := by
  cases hopen : s.isFinished with
  | true => rw [conclude, if_pos hopen, outcome_of_isFinished hopen, outcome_of_isFinished hopen]
  | false =>
    rw [conclude, if_neg (Bool.eq_false_iff.1 hopen), outcome_push hopen rfl, outcome, outcome]
    cases s.maxProblems <;> simp [limitProblems]

/-! ## What is still to come -/

variable (labels : Nat → String)

/-- What is still to come from the parser, with the declarations on the way. -/
def ahead (s : Source) : List Event :=
  s.found ++
    if s.isClosed then []
    else if s.isEnded then s.parser.close labels
    else
      let (events, p) := s.parser.drain labels false
      events ++ ((s.awaiting.map fun d => .declaration (d.announce p)).toList
        ++ readFrom labels p s.given (s.input.drop s.given) s.directives)

/-- The lines of the directives that are not announced. -/
def linesAhead (s : Source) : List Nat :=
  (s.awaiting.toList ++ s.directives).map fun d => lineOf s.input d.start

/-- All that is to come without a limit, if this is to come from the parser. -/
def whole (s : Source) (events : List Event) : List Event :=
  events ++ (undecodable s.input (s.errors ++ events)
    ++ (if s.warnsUnused then
        unused (s.declared ++ (declarationsOf events).zip s.linesAhead)
          (s.mentioned ++ Trig.mentioned events)
      else []) ++ [.finished])

/-- All that a source will yield. -/
def outlook (s : Source) : List Event := s.outcome (s.whole (s.ahead labels))

/-- What is reported changes nothing of what is to come from the parser. -/
theorem exists_of_report (s : Source) (e : Event) : ∃ pending problems isFinished,
    s.report e = { s with pending, problems, isFinished } := by
  unfold report
  repeat' split
  all_goals exact ⟨_, _, _, rfl⟩

theorem ahead_report (s : Source) (e : Event) : (s.report e).ahead labels = s.ahead labels := by
  obtain ⟨_, _, _, h⟩ := s.exists_of_report e
  rw [h]
  rfl

theorem whole_report (s : Source) (e : Event) (events : List Event) :
    (s.report e).whole events = s.whole events := by
  obtain ⟨_, _, _, h⟩ := s.exists_of_report e
  rw [h]
  rfl

/-- What is no problem counts for no line. -/
theorem undecodable_append_cons {e : Event} (h : e.problem? = none) (bytes : Bytes)
    (errors events : List Event) :
    undecodable bytes (errors ++ e :: events) = undecodable bytes (errors ++ events) := by
  have hlines : problemLines (errors ++ e :: events) = problemLines (errors ++ events) := by
    cases e with
    | problem p => cases h
    | _ => simp [problemLines]
  rw [undecodable, undecodable, hlines]

/-- What holds between the steps of a source. -/
structure IsSound (s : Source) : Prop where
  given_le : s.given ≤ s.input.length
  stops : ∀ d ∈ s.directives, s.given < d.stop ∧ d.stop ≤ s.input.length
  ordered : s.directives.Pairwise (·.stop < ·.stop)
  ended : s.isEnded → s.awaiting = none ∧ s.given = s.input.length
  closed : s.isClosed → s.isEnded ∧ s.parser.next? labels true = none
  parsed : ∀ e ∈ s.found, e.isParsed

section

variable {labels} {s : Source}

/-- Before the end nothing is told of the whole. -/
theorem IsSound.isClosed_eq (h : IsSound labels s) (hended : s.isEnded = false) :
    s.isClosed = false := by
  rw [← Bool.not_eq_true]
  intro hclosed
  rw [(h.closed hclosed).1] at hended
  cases hended

/-- A parser that has told what is wrong with the whole has no more tokens. -/
theorem IsSound.isClosed_of_next? (h : IsSound labels s) {found : List Event} {parser : Parser}
    (hnext : s.parser.next? labels s.isEnded = some (found, parser)) : s.isClosed = false := by
  rw [← Bool.not_eq_true]
  intro hclosed
  obtain ⟨hended, hnone⟩ := h.closed hclosed
  rw [hended, hnone] at hnext
  cases hnext

theorem IsSound.report (h : IsSound labels s) (e : Event) : IsSound labels (s.report e) := by
  obtain ⟨_, _, _, hreport⟩ := s.exists_of_report e
  rw [hreport]
  exact ⟨h.given_le, h.stops, h.ordered, h.ended, h.closed, h.parsed⟩

theorem IsSound.announce (h : IsSound labels s) (d : Directive) : IsSound labels (s.announce d) :=
  ⟨h.given_le, h.stops, h.ordered, fun hended => ⟨rfl, (h.ended hended).2⟩, h.closed, h.parsed⟩

theorem IsSound.take (h : IsSound labels s) {e : Event} {found : List Event}
    (hfound : s.found = e :: found) : IsSound labels (take { s with found } e) := by
  have hparsed : ∀ e ∈ found, e.isParsed := by
    intro e' he'
    exact h.parsed e' (hfound ▸ List.mem_cons_of_mem e he')
  cases e with
  | problem p =>
    have hsound : IsSound labels { s with found, errors := s.errors ++ [.problem p] } :=
      ⟨h.given_le, h.stops, h.ordered, h.ended, h.closed, hparsed⟩
    exact hsound.report _
  | _ => exact ⟨h.given_le, h.stops, h.ordered, h.ended, h.closed, hparsed⟩

/-! ## Steps -/

/-- A result of the parser is taken. -/
theorem outlook_take (hopen : s.isFinished = false) {e : Event} {found : List Event}
    (hfound : s.found = e :: found) (he : e.isParsed) :
    (take { s with found } e).outlook labels = s.outlook labels := by
  have hahead : s.ahead labels = e :: ahead labels { s with found } := by
    rw [ahead, hfound, List.cons_append]
    rfl
  rw [outlook, outlook, hahead]
  cases e with
  | statement st =>
    -- A statement goes from what is ahead to what was mentioned.
    show (take { s with found } (.statement st)).outcome
      (whole _ (ahead labels { s with found })) = _
    generalize ahead labels { s with found } = events
    have hwhole : s.whole (.statement st :: events)
        = .statement st :: whole (take { s with found } (.statement st)) events := by
      rw [whole, undecodable_append_cons rfl, declarationsOf_cons, List.cons_append]
      simp only [Event.declaration?, Option.toList_none, List.nil_append, whole, take,
        List.append_assoc]
      rfl
    rw [hwhole, outcome_push hopen rfl]
    rfl
  | problem p =>
    -- An error goes from what is ahead to the errors, and counts for its line as before.
    show (report { s with found, errors := s.errors ++ [.problem p] } _).outcome
      (whole (report _ _) (ahead labels (report _ _))) = _
    rw [whole_report, ahead_report, ← outcome_report]
    show _ = outcome { s with found, errors := s.errors ++ [.problem p] } _
    congr 1
    show .problem p :: whole _ (ahead labels { s with found }) = _
    generalize ahead labels { s with found } = events
    simp only [whole, List.append_assoc, List.cons_append, declarationsOf_cons, Event.declaration?,
      Option.toList_none, List.nil_append]
    rfl
  | _ => cases he

/-- A token is read. -/
theorem ahead_token (hsound : IsSound labels s) (hfound : s.found = []) {found : List Event}
    {parser : Parser} (hnext : s.parser.next? labels s.isEnded = some (found, parser)) :
    ahead labels { s with found, parser } = s.ahead labels := by
  rw [ahead, ahead, hfound, List.nil_append]
  dsimp only
  rw [hsound.isClosed_of_next? hnext, if_neg Bool.false_ne_true, if_neg Bool.false_ne_true]
  cases hended : s.isEnded with
  | true =>
    rw [hended] at hnext
    rw [if_pos rfl, if_pos rfl, Parser.close_of_some labels hnext]
  | false =>
    rw [hended] at hnext
    rw [if_neg Bool.false_ne_true, if_neg Bool.false_ne_true, Parser.drain_of_some labels hnext,
      List.append_assoc]

/-- Reading on without directives is reading to the end. -/
theorem readFrom_nil (p : Parser) (given : Nat) : readFrom labels p given [] [] = p.close labels := by
  have hclose := Parser.close_feed labels p []
  rw [Parser.feed_nil, Parser.feed_nil] at hclose
  rw [hclose, readFrom, Parser.feed_nil]

section

variable (hsound : IsSound labels s) (hfound : s.found = [])
  (hnext : s.parser.next? labels s.isEnded = none)
include hsound hfound hnext

/-- A parser that waits for more has told all that follows from what it was given. -/
theorem ahead_of_waiting (hended : s.isEnded = false) :
    s.ahead labels = (s.awaiting.map fun d => .declaration (d.announce s.parser)).toList
      ++ readFrom labels s.parser s.given (s.input.drop s.given) s.directives := by
  have hnext' := hnext
  rw [hended] at hnext'
  rw [ahead, hfound, hsound.isClosed_eq hended, hended, if_neg Bool.false_ne_true,
    if_neg Bool.false_ne_true, Parser.drain_of_none labels hnext']
  rfl

/-- A directive is announced. -/
theorem outlook_announce (hopen : s.isFinished = false) {d : Directive}
    (hawaiting : s.awaiting = some d) : (s.announce d).outlook labels = s.outlook labels := by
  have hended : s.isEnded = false := by
    rw [← Bool.not_eq_true]
    intro hended
    rw [(hsound.ended hended).1] at hawaiting
    cases hawaiting
  have hahead : s.ahead labels
      = .declaration (d.announce s.parser) :: (s.announce d).ahead labels := by
    have hlater := ahead_of_waiting (hsound.announce d) hfound hnext hended
    rw [ahead_of_waiting hsound hfound hnext hended, hlater, hawaiting]
    rfl
  rw [outlook, outlook, hahead]
  generalize (s.announce d).ahead labels = events
  have hwhole : s.whole (.declaration (d.announce s.parser) :: events)
      = .declaration (d.announce s.parser) :: (s.announce d).whole events := by
    rw [whole, undecodable_append_cons rfl, declarationsOf_cons, List.cons_append]
    simp only [Event.declaration?, linesAhead, hawaiting, Option.toList_some,
      List.singleton_append, List.map_cons, List.zip_cons_cons, whole, announce, List.append_assoc,
      Option.toList_none, List.nil_append]
    rfl
  rw [hwhole, outcome_push hopen rfl]
  rfl

/-- The parser is given more. -/
theorem ahead_feed (hawaiting : s.awaiting = none) (hgiven : s.given < s.input.length) :
    s.feed.ahead labels = s.ahead labels := by
  have hended : s.isEnded = false := by
    rw [← Bool.not_eq_true]
    intro hended
    have := (hsound.ended hended).2
    omega
  rw [ahead_of_waiting hsound hfound hnext hended, hawaiting, ahead, feed]
  dsimp only
  rw [hfound, hsound.isClosed_eq hended, hended, if_neg Bool.false_ne_true,
    if_neg Bool.false_ne_true]
  cases hdirectives : s.directives with
  | nil =>
    have hrest : (s.input.drop s.given).take (s.input.length - s.given) = s.input.drop s.given :=
      List.take_of_length_le (Nat.le_of_eq List.length_drop)
    simp only [List.head?_nil, Option.elim_none, List.tail_nil, hrest, List.drop_length,
      readFrom_nil, Option.map_none, Option.toList_none, List.nil_append, readFrom]
  | cons d ds =>
    have hstop : s.given < d.stop := (hsound.stops d (hdirectives ▸ List.mem_cons_self)).1
    have hdrop : (s.input.drop s.given).drop (d.stop - s.given) = s.input.drop d.stop := by
      rw [List.drop_drop]
      congr 1
      omega
    have hmax : max d.stop s.given = d.stop := Nat.max_eq_left (Nat.le_of_lt hstop)
    simp only [List.head?_cons, Option.elim_some, List.tail_cons, hmax, hdrop,
      Option.map_some, Option.toList_some, Option.map_none, Option.toList_none, List.nil_append,
      List.singleton_append, readFrom]

/-- The parser is told that it was given all. -/
theorem ahead_end (hawaiting : s.awaiting = none) (hgiven : ¬ s.given < s.input.length)
    (hended : s.isEnded = false) : ahead labels { s with isEnded := true } = s.ahead labels := by
  have hdirectives : s.directives = [] := by
    apply List.eq_nil_iff_forall_not_mem.2
    intro d hd
    have := hsound.stops d hd
    omega
  have hdrop : s.input.drop s.given = [] := List.drop_eq_nil_of_le (Nat.le_of_not_lt hgiven)
  rw [ahead_of_waiting hsound hfound hnext hended, hawaiting, hdirectives, hdrop, readFrom_nil,
    ahead, hfound]
  dsimp only
  rw [hsound.isClosed_eq hended, if_neg Bool.false_ne_true, if_pos rfl]
  rfl

end

/-- The parser tells what is wrong with the whole. -/
theorem ahead_close (hfound : s.found = []) (hended : s.isEnded = true)
    (hclosed : s.isClosed = false) :
    ahead labels { s with isClosed := true, found := s.parser.close labels } = s.ahead labels := by
  rw [ahead, ahead, hfound]
  dsimp only
  rw [if_pos rfl, hclosed, if_neg Bool.false_ne_true, hended, if_pos rfl, List.append_nil,
    List.nil_append]

/-- The document as a whole is faulted. -/
theorem outlook_finish (hfound : s.found = []) (hclosed : s.isClosed = true) :
    s.finish.outlook labels = s.outlook labels := by
  have hahead : s.ahead labels = [] := by
    rw [ahead, hfound, hclosed, if_pos rfl, List.append_nil]
  have hproblems : ∀ e ∈ undecodable s.input s.errors
      ++ (if s.warnsUnused then unused s.declared s.mentioned else []), ∃ p, e = .problem p := by
    intro e he
    rcases List.mem_append.1 he with he | he
    · exact exists_of_mem_undecodable he
    · split at he
      · exact (exists_of_mem_unused he).imp fun _ => And.left
      · cases he
  have hwhole : s.whole [] = (undecodable s.input s.errors
      ++ (if s.warnsUnused then unused s.declared s.mentioned else [])) ++ [.finished] := by
    have hnone : Trig.mentioned [] = [] := rfl
    simp only [whole, List.append_nil, List.nil_append, declarationsOf_nil, List.zip_nil_left, hnone]
  rw [outlook, outlook, hahead, hwhole, outcome_reports hproblems, outcome_finished, finish,
    outcome_of_isFinished (isFinished_conclude _), outcome_of_isFinished (isFinished_conclude _)]

/-! ## All steps -/

theorem IsSound.conclude (h : IsSound labels s) : IsSound labels s.conclude := by
  unfold Source.conclude
  split
  · exact h
  · exact ⟨h.given_le, h.stops, h.ordered, h.ended, h.closed, h.parsed⟩

theorem IsSound.finish (h : IsSound labels s) : IsSound labels s.finish := by
  have hreports : ∀ (problems : List Event) (s : Source), IsSound labels s →
      IsSound labels (problems.foldl Source.report s) := by
    intro problems
    induction problems with
    | nil => exact fun s h => h
    | cons e rest ih => exact fun s h => ih _ (h.report e)
  exact (hreports _ s h).conclude

theorem IsSound.feed (h : IsSound labels s) (hgiven : s.given < s.input.length) :
    IsSound labels s.feed := by
  have hended : s.isEnded = false := by
    rw [← Bool.not_eq_true]
    intro hended
    have := (h.ended hended).2
    omega
  have hclosed := h.isClosed_eq hended
  have hdirectives : s.feed.given ≤ s.input.length
      ∧ (∀ d ∈ s.feed.directives, s.feed.given < d.stop ∧ d.stop ≤ s.input.length)
      ∧ s.feed.directives.Pairwise (·.stop < ·.stop) := by
    have hstops := h.stops
    have hordered := h.ordered
    rw [Source.feed]
    dsimp only
    cases hds : s.directives with
    | nil => exact ⟨Nat.le_refl _, List.forall_mem_nil _, List.Pairwise.nil⟩
    | cons d ds =>
      rw [hds, List.forall_mem_cons] at hstops
      rw [hds, List.pairwise_cons] at hordered
      simp only [List.head?_cons, Option.elim_some]
      refine ⟨by omega, ?_, hordered.2⟩
      intro d' hd'
      have := hordered.1 d' hd'
      have := hstops.2 d' hd'
      omega
  refine ⟨hdirectives.1, hdirectives.2.1, hdirectives.2.2, ?_, ?_, h.parsed⟩
  · intro hended'
    exact absurd hended' (Bool.eq_false_iff.1 hended)
  · intro hclosed'
    exact absurd hclosed' (Bool.eq_false_iff.1 hclosed)

/-- What is to come from the parser decides what is to come, as long as nothing else changes. -/
theorem outlook_proceed (hsound : IsSound labels s) (hopen : s.isFinished = false)
    (hfound : s.found = []) (hnext : s.parser.next? labels s.isEnded = none) :
    IsSound labels (s.proceed labels) ∧ (s.proceed labels).outlook labels = s.outlook labels := by
  unfold proceed
  split
  · next d hawaiting =>
    exact ⟨hsound.announce d, outlook_announce hsound hfound hnext hopen hawaiting⟩
  · next hawaiting =>
    split
    · next hgiven =>
      refine ⟨hsound.feed hgiven, ?_⟩
      -- The next directive is awaited instead, so the lines to be announced stay the same.
      have hlines : s.feed.linesAhead = s.linesAhead := by
        rw [linesAhead, linesAhead, hawaiting, Source.feed]
        cases s.directives <;> rfl
      rw [outlook, outlook, ahead_feed hsound hfound hnext hawaiting hgiven, whole, whole, hlines]
      rfl
    · next hgiven =>
      split
      · next hended =>
        have hended : s.isEnded = false := by simpa using hended
        have hclosed := hsound.isClosed_eq hended
        refine ⟨⟨hsound.given_le, hsound.stops, hsound.ordered, ?_, ?_, hsound.parsed⟩, ?_⟩
        · exact fun _ => ⟨hawaiting, by have := hsound.given_le; dsimp only; omega⟩
        · exact fun hclosed' => absurd hclosed' (Bool.eq_false_iff.1 hclosed)
        · show outcome s (whole s (ahead labels { s with isEnded := true })) = _
          rw [ahead_end hsound hfound hnext hawaiting hgiven hended]
          rfl
      · next hended =>
        have hended : s.isEnded = true := by simpa using hended
        split
        · next hclosed =>
          have hclosed : s.isClosed = false := by simpa using hclosed
          rw [hended] at hnext
          refine ⟨⟨hsound.given_le, hsound.stops, hsound.ordered, hsound.ended,
            fun _ => ⟨hended, hnext⟩, ?_⟩, ?_⟩
          · exact Parser.isParsed_close labels s.parser
          · show outcome s (whole s (ahead labels { s with isClosed := true, found := _ })) = _
            rw [ahead_close hfound hended hclosed]
            rfl
        · next hclosed =>
          have hclosed : s.isClosed = true := by simpa using hclosed
          exact ⟨hsound.finish, outlook_finish hfound hclosed⟩

/-- A step changes nothing of what is to come. -/
theorem outlook_step (hsound : IsSound labels s) (hopen : s.isFinished = false) :
    IsSound labels (s.step labels) ∧ (s.step labels).outlook labels = s.outlook labels := by
  unfold step
  split
  · next e found hfound =>
    have he := hsound.parsed e (hfound ▸ List.mem_cons_self)
    exact ⟨hsound.take hfound, outlook_take hopen hfound he⟩
  · next hfound =>
    split
    · next found parser hnext =>
      have hclosed := hsound.isClosed_of_next? hnext
      refine ⟨⟨hsound.given_le, hsound.stops, hsound.ordered, hsound.ended, ?_, ?_⟩, ?_⟩
      · exact fun hclosed' => absurd hclosed' (Bool.eq_false_iff.1 hclosed)
      · exact fun e he =>
          Event.isParsed_of_isStatementOrError (Parser.isStatementOrError_next? labels hnext e he)
      · show outcome s (whole s (ahead labels { s with found, parser })) = _
        rw [ahead_token hsound hfound hnext]
        rfl
    · next hnext => exact outlook_proceed hsound hopen hfound hnext

/-! ## Asking -/

/-- Asking a source takes the first event of what is to come. -/
theorem next_spec (hsound : IsSound labels s) :
    (s.next labels).1 = (s.outlook labels).head?
      ∧ IsSound labels (s.next labels).2
      ∧ (s.next labels).2.outlook labels = (s.outlook labels).tail := by
  fun_induction next labels s with
  | case1 s e pending hpending =>
    have houtlook : s.outlook labels = e :: outlook labels { s with pending } := by
      rw [outlook, outcome, hpending, List.cons_append]
      rfl
    rw [houtlook]
    exact ⟨rfl, ⟨hsound.given_le, hsound.stops, hsound.ordered, hsound.ended, hsound.closed,
      hsound.parsed⟩, rfl⟩
  | case2 s hpending hfinished =>
    have houtlook : s.outlook labels = [] := by
      rw [outlook, outcome_of_isFinished hfinished, hpending]
    rw [houtlook]
    exact ⟨rfl, hsound, rfl⟩
  | case3 s hpending hopen ih =>
    -- The answer is that after a step, which leaves what is to come as it is.
    obtain ⟨hsound', hsame⟩ := outlook_step hsound (Bool.eq_false_iff.2 hopen)
    rw [← hsame]
    exact ih hsound'

/-- The answers of a source are what is to come, and then nothing. -/
theorem answer_eq (hsound : IsSound labels s) (n : Nat) :
    s.answer labels n = (s.outlook labels)[n]? := by
  induction n generalizing s with
  | zero => rw [answer, (next_spec hsound).1, List.head?_eq_getElem?]
  | succ n ih =>
    obtain ⟨-, hsound', htail⟩ := next_spec hsound
    rw [answer, ih hsound', htail, List.getElem?_tail]

end

/-! ## From the start -/

theorem isSound_start (base : Option Iri) (warnsUnused : Bool) (maxProblems : Option Nat)
    (input : Bytes) : IsSound labels (start base warnsUnused maxProblems input) := by
  obtain ⟨hbounds, hordered⟩ := Directive.ordered_scanFrom none 0 input
  refine ⟨Nat.zero_le _, ?_, ?_, nofun, nofun, List.forall_mem_nil _⟩
  · intro d hd
    have := hbounds d hd
    show 0 < d.stop ∧ d.stop ≤ input.length
    omega
  · -- A directive is not empty, so it ends behind those that end where it starts or before.
    refine hordered.imp_of_mem ?_
    intro d d' _ hd' hle
    have := hbounds d' hd'
    omega

/-- What is to come at first is the whole document. -/
theorem outlook_start (base : Option Iri) (warnsUnused : Bool) (maxProblems : Option Nat)
    (input : Bytes) :
    (start base warnsUnused maxProblems input).outlook labels
      = match maxProblems with
        | some max => limitProblems max max (readAll labels base warnsUnused input)
        | none => readAll labels base warnsUnused input := by
  have hsound := isSound_start labels base warnsUnused maxProblems input
  have hahead : (start base warnsUnused maxProblems input).ahead labels
      = readFrom labels (.start base) 0 input (Directive.scan input) :=
    ahead_of_waiting hsound rfl rfl rfl
  have hwhole : (start base warnsUnused maxProblems input).whole
      ((start base warnsUnused maxProblems input).ahead labels)
      = readAll labels base warnsUnused input := by
    rw [hahead, whole, readAll, Trig.declared]
    simp only [List.append_assoc]
    rfl
  rw [outlook, hwhole]
  cases maxProblems <;> rfl

/-- A source yields what `read` tells. -/
theorem answer_of_read {o : Options} {input : Bytes} {events : List Event}
    (h : read labels o input = .ok events) :
    ∃ s, ofBytes o input = .ok s ∧ ∀ n, s.answer labels n = events[n]? := by
  cases hbase : o.base? with
  | error e =>
    rw [read, hbase] at h
    cases h
  | ok base =>
    rw [read, hbase] at h
    refine ⟨start base o.warnsUnused o.maxProblems input, by rw [ofBytes, hbase]; rfl, ?_⟩
    have houtlook : (start base o.warnsUnused o.maxProblems input).outlook labels = events :=
      (outlook_start labels base o.warnsUnused o.maxProblems input).trans (Except.ok.inj h)
    intro n
    rw [answer_eq (isSound_start labels base o.warnsUnused o.maxProblems input), houtlook]

/-- A source yields finitely many events and then nothing. Only the last tells how the reading ended,
and it was not that the document could not be read on. With a limit, what comes without it is cut
right before the problem that exceeds the limit, and then the source gives up. -/
theorem answer_ends_once {o : Options} {base : Option Iri} (hbase : o.base? = .ok base)
    (input : Bytes) :
    ∃ s front,
      ofBytes { o with maxProblems := none } input = .ok s
        ∧ read labels { o with maxProblems := none } input = .ok (front ++ [.finished])
        ∧ (∀ n, s.answer labels n = (front ++ [.finished])[n]?)
        ∧ (∀ e ∈ front, e.isEnd = false)
        ∧ ∀ max, ∃ s' kept last,
          ofBytes { o with maxProblems := some max } input = .ok s'
            ∧ read labels { o with maxProblems := some max } input = .ok (kept ++ [last])
            ∧ (∀ n, s'.answer labels n = (kept ++ [last])[n]?)
            ∧ (∀ e ∈ kept, e.isEnd = false)
            ∧ if (problemsOf front).length ≤ max then kept = front ∧ last = .finished
              else last = .aborted s!"too many problems (limit {max})"
                ∧ (problemsOf kept).length = max ∧ ∃ p rest, front = kept ++ .problem p :: rest := by
  obtain ⟨front, hfront, hopen⟩ := exists_of_readAll labels base o.warnsUnused input
  have hread : read labels { o with maxProblems := none } input = .ok (front ++ [.finished]) := by
    show o.base?.map _ = _
    rw [hbase, ← hfront]
    rfl
  have hread' : ∀ max, read labels { o with maxProblems := some max } input
      = .ok (limitProblems max max (front ++ [.finished])) := by
    intro max
    show o.base?.map _ = _
    rw [hbase, ← hfront]
    rfl
  obtain ⟨s, hs, hanswer⟩ := answer_of_read labels hread
  refine ⟨s, front, hs, hread, hanswer, hopen, ?_⟩
  intro max
  obtain ⟨s', hs', hanswer'⟩ := answer_of_read labels (hread' max)
  have hread' := hread' max
  have hcuts := limitProblems_cuts front [.finished] rfl max max
  -- A limit that is not exceeded cuts nothing, not even the end.
  by_cases hle : (problemsOf front).length ≤ max
  · rw [if_pos hle] at hcuts
    rw [hcuts] at hread' hanswer'
    refine ⟨s', front, .finished, hs', hread', hanswer', hopen, ?_⟩
    rw [if_pos hle]
    exact ⟨rfl, rfl⟩
  · rw [if_neg hle] at hcuts
    obtain ⟨kept, p, rest, hsplit, hcount, hlimit⟩ := hcuts
    rw [hlimit] at hread' hanswer'
    refine ⟨s', kept, _, hs', hread', hanswer', ?_, ?_⟩
    · intro e he
      exact hopen e (hsplit ▸ List.mem_append_left _ he)
    · rw [if_neg hle]
      exact ⟨rfl, hcount, p, rest, hsplit⟩

/-- An error and a prefix that nothing uses, under a limit for one of them. -/
theorem answer_ends_once_limit :
    (Options.base? ⟨some "http://e/", true, none⟩).toOption.isSome
      ∧ ∃ s kept, ofBytes ⟨some "http://e/", true, some 1⟩
          (Utf8.encode "@prefix u: <u/> .\n<a> .\n") = .ok s
        ∧ (∀ n, s.answer (fun _ => "f") n
          = (kept ++ [.aborted "too many problems (limit 1)"])[n]?)
        ∧ (problemsOf kept).length = 1 ∧ ∀ e ∈ kept, e.isEnd = false := by
  have hsome : (Options.base? ⟨some "http://e/", true, none⟩).toOption.isSome := by decide +kernel
  obtain ⟨base, hbase⟩ := Option.isSome_iff_exists.1 hsome
  obtain ⟨-, front, -, hread, -, -, hlimit⟩ := answer_ends_once (fun _ => "f")
    (eq_ok_of_toOption hbase) (Utf8.encode "@prefix u: <u/> .\n<a> .\n")
  have hcount : (problemsOf front).length = 2 := by
    have hall : (read (fun _ => "f") ⟨some "http://e/", true, none⟩
        (Utf8.encode "@prefix u: <u/> .\n<a> .\n")).toOption.map
          (fun events => (problemsOf events).length) = some 2 := by decide +kernel
    rw [hread] at hall
    have hlength : (problemsOf (front ++ [.finished])).length = 2 := Option.some.inj hall
    rw [problemsOf_append, List.length_append] at hlength
    exact hlength
  obtain ⟨s, kept, last, hs, -, hanswer, hopen, hcut⟩ := hlimit 1
  rw [if_neg (by omega)] at hcut
  obtain ⟨hlast, hkept, -⟩ := hcut
  rw [hlast] at hanswer
  exact ⟨hsome, s, kept, hs, hanswer, hkept, hopen⟩

end Source

/-! ## Reading by a source -/

variable (labels : Nat → String)

/-- Reading tells these events of a document: a source yields them, one after the other, and then
nothing. -/
def Yields (o : Options) (bytes : Bytes) (events : List Event) : Prop :=
  read labels o bytes = .ok events
    ∧ ∃ s, Source.ofBytes o bytes = .ok s ∧ ∀ n, s.answer labels n = events[n]?

section

variable {o : Options} {base : Option Iri} (hbase : o.base? = .ok base) (warnsUnused : Bool)
  (bytes : Bytes)
include hbase

/-- A source yields all events of its document, or those within its limit. -/
theorem yields_read (maxProblems : Option Nat) :
    Yields labels { o with warnsUnused, maxProblems } bytes
      (match maxProblems with
        | some max => limitProblems max max (readAll labels base warnsUnused bytes)
        | none => readAll labels base warnsUnused bytes) := by
  have hread : read labels { o with warnsUnused, maxProblems } bytes
      = .ok (match maxProblems with
        | some max => limitProblems max max (readAll labels base warnsUnused bytes)
        | none => readAll labels base warnsUnused bytes) := by
    show o.base?.map _ = _
    rw [hbase]
    rfl
  exact ⟨hread, Source.answer_of_read labels hread⟩

/-- What a source yields without a limit. -/
theorem yields_readAll :
    Yields labels { o with warnsUnused, maxProblems := none } bytes
      (readAll labels base warnsUnused bytes) :=
  yields_read labels hbase warnsUnused bytes none

/-- What a source yields with a limit. -/
theorem yields_limitProblems (max : Nat) :
    Yields labels { o with warnsUnused, maxProblems := some max } bytes
      (limitProblems max max (readAll labels base warnsUnused bytes)) :=
  yields_read labels hbase warnsUnused bytes (some max)

end

end TidyTrig.Trig
