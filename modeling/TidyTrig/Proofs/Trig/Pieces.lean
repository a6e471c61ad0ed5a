import TidyTrig.Proofs.Trig.Pattern
import TidyTrig.Proofs.Trig.Source

/-!
# The document in pieces

A source gives the parser the document piece by piece. `pieces` are the pieces that it gives while it
is asked for one event. Each starts where the one before it stopped, and lies within the document
(`joins_piecesUntil`). A source only tells that the document was read to its end when it was given all of
it, so that the pieces are then the document.
-/

namespace TidyTrig.Trig.Source

open Directive (slice)

/-! ## Pieces that lie one behind another -/

/-- Bytes that the parser is given, with the places where they are to start and stop. -/
structure Piece where
  start : Nat
  stop : Nat
  bytes : Bytes

/-- Whether pieces lead from one place in a text to another. -/
def Joins (text : Bytes) : Nat → List Piece → Nat → Prop
  | start, [], stop => start = stop
  | start, piece :: rest, stop => piece.start = start ∧ piece.start ≤ piece.stop
    ∧ piece.bytes = slice text piece.start piece.stop ∧ Joins text piece.stop rest stop

section

variable {text : Bytes} {start middle stop : Nat} {pieces later : List Piece}

theorem Joins.append (h : Joins text start pieces middle) (hlater : Joins text middle later stop) :
    Joins text start (pieces ++ later) stop := by
  induction pieces generalizing start with
  | nil =>
    rw [Joins] at h
    rwa [h]
  | cons piece rest ih =>
    obtain ⟨hstart, hle, hbytes, hrest⟩ := h
    exact ⟨hstart, hle, hbytes, ih hrest⟩

/-- No piece is inverted, and none goes beyond the last. -/
theorem Joins.le (h : Joins text start pieces stop) :
    start ≤ stop ∧ ∀ piece ∈ pieces, piece.start ≤ piece.stop ∧ piece.stop ≤ stop := by
  induction pieces generalizing start with
  | nil => exact ⟨Nat.le_of_eq h, List.forall_mem_nil _⟩
  | cons piece rest ih =>
    obtain ⟨rfl, hle, -, hrest⟩ := h
    obtain ⟨hstop, hall⟩ := ih hrest
    exact ⟨Nat.le_trans hle hstop, List.forall_mem_cons.2 ⟨⟨hle, hstop⟩, hall⟩⟩

theorem slice_append (text : Bytes) (h : start ≤ middle) (h' : middle ≤ stop) :
    slice text start middle ++ slice text middle stop = slice text start stop := by
  have hdrop : text.drop middle = (text.drop start).drop (middle - start) := by
    rw [List.drop_drop]
    congr 1
    omega
  have hcount : stop - start = middle - start + (stop - middle) := by omega
  rw [slice, slice, slice, hdrop, hcount, List.take_add]

/-- Such pieces are the text from the first place to the last. -/
theorem Joins.flatMap_bytes (h : Joins text start pieces stop) :
    pieces.flatMap Piece.bytes = slice text start stop := by
  induction pieces generalizing start with
  | nil =>
    rw [Joins] at h
    rw [h, slice, Nat.sub_self]
    rfl
  | cons piece rest ih =>
    obtain ⟨rfl, hle, hbytes, hrest⟩ := h
    rw [List.flatMap_cons, ih hrest, hbytes]
    exact slice_append text hle hrest.le.1

end

/-! ## Giving the parser more -/

variable (labels : Nat → String)

/-- Whether the next step gives the parser more of the document. -/
def feeds (s : Source) : Bool :=
  s.found.isEmpty && (s.parser.next? labels s.isEnded).isNone && s.awaiting.isNone
    && s.given < s.input.length

/-- What the parser has to read when it is given more, and had not before. -/
def piece (s : Source) : Piece where
  start := s.given
  stop := s.feed.given
  bytes := s.feed.parser.unread.drop s.parser.unread.length

theorem bytes_piece (s : Source) : s.piece.bytes = slice s.input s.piece.start s.piece.stop :=
  List.drop_left

/-- The pieces that the parser is given while the source is asked for an event. -/
def pieces (s : Source) : List Piece :=
  match s.pending with
  | _ :: _ => []
  | [] =>
    if s.isFinished then []
    else (if s.feeds labels then [s.piece] else []) ++ pieces (s.step labels)
  termination_by if s.isFinished then (0, 0) else (s.work + 1, s.found.length)
  decreasing_by
    next hopen =>
    rw [if_neg hopen, Prod.lex_def]
    rcases s.work_step labels with hfinished | hwork | ⟨hwork, hfound⟩
    · rw [if_pos hfinished]
      exact .inl (Nat.succ_pos _)
    · split
      · exact .inl (Nat.succ_pos _)
      · exact .inl (Nat.succ_lt_succ hwork)
    · split
      · exact .inl (Nat.succ_pos _)
      · exact .inr ⟨congrArg (· + 1) hwork, hfound⟩

/-- The pieces that the parser is given while the source is asked this often. -/
def piecesUntil (s : Source) : Nat → List Piece
  | 0 => []
  | n + 1 => s.pieces labels ++ piecesUntil (s.next labels).2 n

variable {labels} {s : Source}

theorem feeds_iff : s.feeds labels ↔ s.found = [] ∧ s.parser.next? labels s.isEnded = none
    ∧ s.awaiting = none ∧ s.given < s.input.length := by
  simp [feeds, and_assoc]

/-- Such a step does nothing else. -/
theorem step_of_feeds (h : s.feeds labels) : s.step labels = s.feed := by
  obtain ⟨hfound, hnext, hawaiting, hgiven⟩ := feeds_iff.1 h
  rw [step, hfound]
  dsimp only
  rw [hnext]
  dsimp only
  rw [proceed, hawaiting]
  exact if_pos hgiven

/-! ## Reports -/

/-- Events are told, and nothing else changes of what is left of the document. -/
structure Tells (s t : Source) : Prop where
  input : t.input = s.input
  given : t.given = s.given
  parser : t.parser = s.parser

theorem Tells.trans {t u : Source} (h : Tells s t) (h' : Tells t u) : Tells s u :=
  ⟨h'.input.trans h.input, h'.given.trans h.given, h'.parser.trans h.parser⟩

theorem tells_report (s : Source) (e : Event) : Tells s (s.report e) := by
  obtain ⟨_, _, _, h⟩ := s.exists_of_report e
  rw [h]
  exact ⟨rfl, rfl, rfl⟩

theorem tells_finish (s : Source) : Tells s s.finish := by
  have hreports : ∀ (problems : List Event) (s : Source), Tells s (problems.foldl report s) := by
    intro problems
    induction problems with
    | nil => exact fun s => ⟨rfl, rfl, rfl⟩
    | cons e rest ih => exact fun s => (tells_report s e).trans (ih _)
  have hconclude : ∀ s : Source, Tells s s.conclude := by
    intro s
    unfold conclude
    split
    · exact ⟨rfl, rfl, rfl⟩
    · exact ⟨rfl, rfl, rfl⟩
  exact (hreports _ s).trans (hconclude _)

/-- Only of a problem is nothing said but the problem, or that there are too many. -/
theorem mem_pending_of_report {e : Event} (he : e ≠ .finished)
    (h : .finished ∈ (s.report e).pending) : .finished ∈ s.pending := by
  unfold report at h
  split at h
  · exact h
  · split at h
    · simpa using h
    · simpa [he.symm] using h

/-! ## Steps -/

/-- Whether the end of the document is only told when the parser was given all of it. -/
def IsWhole (s : Source) : Prop := .finished ∈ s.pending → s.given = s.input.length

/-- A result of the parser is told, and never that the document ends. -/
theorem take_spec {e : Event} (he : e.isParsed) :
    Tells s (s.take e) ∧ (.finished ∈ (s.take e).pending → .finished ∈ s.pending) := by
  cases e with
  | statement st => exact ⟨⟨rfl, rfl, rfl⟩, by simp [take]⟩
  | problem p =>
    have hreport := tells_report { s with errors := s.errors ++ [.problem p] } (.problem p)
    exact ⟨⟨hreport.input, hreport.given, hreport.parser⟩,
      mem_pending_of_report (s := { s with errors := s.errors ++ [.problem p] }) (by simp)⟩
  | _ => cases he

/-- Any other step gives the parser nothing. -/
theorem step_of_not_feeds (hsound : IsSound labels s) (hwhole : s.IsWhole) (h : ¬s.feeds labels) :
    (s.step labels).input = s.input ∧ (s.step labels).given = s.given ∧ (s.step labels).IsWhole
      ∧ ((s.step labels).parser = s.parser
        ∨ ∃ found, s.parser.next? labels s.isEnded = some (found, (s.step labels).parser)) := by
  rw [feeds_iff] at h
  unfold step
  split
  · next e found hfound =>
    obtain ⟨htells, hmem⟩ := @take_spec { s with found } e
      (hsound.parsed e (hfound ▸ List.mem_cons_self))
    refine ⟨htells.input, htells.given, ?_, .inl htells.parser⟩
    intro hfinished
    rw [htells.given, htells.input]
    exact hwhole (hmem hfinished)
  · next hfound =>
    split
    · next found parser hnext => exact ⟨rfl, rfl, hwhole, .inr ⟨found, hnext⟩⟩
    · next hnext =>
      unfold proceed
      split
      · next d hawaiting =>
        refine ⟨rfl, rfl, ?_, .inl rfl⟩
        intro hfinished
        exact hwhole (by simpa [announce] using hfinished)
      · next hawaiting =>
        have hgiven : ¬s.given < s.input.length := fun hgiven => h ⟨hfound, hnext, hawaiting, hgiven⟩
        rw [if_neg hgiven]
        split
        · exact ⟨rfl, rfl, hwhole, .inl rfl⟩
        · split
          · exact ⟨rfl, rfl, hwhole, .inl rfl⟩
          · -- Only here is the end told, and nothing is left to give.
            have htells := s.tells_finish
            refine ⟨htells.input, htells.given, ?_, .inl htells.parser⟩
            intro _
            rw [htells.given, htells.input]
            exact Nat.le_antisymm hsound.given_le (Nat.le_of_not_lt hgiven)

theorem given_le_feed (hsound : IsSound labels s) : s.given ≤ s.feed.given := by
  unfold feed
  cases s.directives with
  | nil => exact hsound.given_le
  | cons d ds => exact Nat.le_max_right _ _

/-- A step leads from what the parser was given to what it is given then. -/
theorem joins_step (hsound : IsSound labels s) (hwhole : s.IsWhole) :
    (s.step labels).input = s.input ∧ (s.step labels).IsWhole
      ∧ Joins s.input s.given (if s.feeds labels then [s.piece] else []) (s.step labels).given := by
  by_cases hfeeds : s.feeds labels
  · rw [if_pos hfeeds, step_of_feeds hfeeds]
    refine ⟨rfl, ?_, rfl, given_le_feed hsound, s.bytes_piece, rfl⟩
    -- There is more to give, so that the end was not told.
    intro hfinished
    have hgiven := (feeds_iff.1 hfeeds).2.2.2
    have := hwhole hfinished
    omega
  · obtain ⟨hinput, hgiven, hwhole', -⟩ := step_of_not_feeds hsound hwhole hfeeds
    rw [if_neg hfeeds, hgiven]
    exact ⟨hinput, hwhole', rfl⟩

/-! ## Asking -/

/-- What is given while a source is asked for an event leads on from what was given before. -/
theorem joins_pieces (hsound : IsSound labels s) (hwhole : s.IsWhole) :
    (s.next labels).2.input = s.input ∧ (s.next labels).2.IsWhole
      ∧ Joins s.input s.given (s.pieces labels) (s.next labels).2.given
      ∧ ((s.next labels).1 = some .finished → (s.next labels).2.given = s.input.length) := by
  fun_induction next labels s with
  | case1 s e pending hpending =>
    -- An event that waits is told, and nothing is given.
    rw [pieces, hpending]
    refine ⟨rfl, ?_, rfl, ?_⟩
    · intro hfinished
      exact hwhole (hpending ▸ List.mem_cons_of_mem e hfinished)
    · intro he
      rw [Option.some.inj he] at hpending
      exact hwhole (hpending ▸ List.mem_cons_self)
  | case2 s hpending hfinished =>
    rw [pieces, hpending]
    dsimp only
    rw [if_pos hfinished]
    exact ⟨rfl, hwhole, rfl, by simp⟩
  | case3 s hpending hopen ih =>
    obtain ⟨hinput, hwhole', hjoins⟩ := joins_step hsound hwhole
    have hsound' := (outlook_step hsound (Bool.eq_false_iff.2 hopen)).1
    obtain ⟨hinput', hwhole'', hjoins', hend⟩ := ih hsound' hwhole'
    rw [hinput] at hjoins' hend
    rw [pieces, hpending]
    dsimp only
    rw [if_neg hopen]
    exact ⟨hinput'.trans hinput, hwhole'', hjoins.append hjoins', hend⟩

/-- What is given while a source is asked for some events leads on from what was given before, and to
the end of the document if the last of them tells that it was read. -/
theorem joins_piecesUntil (hsound : IsSound labels s) (hwhole : s.IsWhole) (n : Nat) :
    ∃ stop ≤ s.input.length, Joins s.input s.given (s.piecesUntil labels (n + 1)) stop
      ∧ (s.answer labels n = some .finished → stop = s.input.length) := by
  induction n generalizing s with
  | zero =>
    obtain ⟨hinput, -, hjoins, hend⟩ := joins_pieces hsound hwhole
    have hle := (next_spec hsound).2.1.given_le
    rw [hinput] at hle
    refine ⟨_, hle, ?_, hend⟩
    rw [piecesUntil, piecesUntil, List.append_nil]
    exact hjoins
  | succ n ih =>
    obtain ⟨hinput, hwhole', hjoins, -⟩ := joins_pieces hsound hwhole
    obtain ⟨stop, hle, hjoins', hend⟩ := ih (next_spec hsound).2.1 hwhole'
    rw [hinput] at hle hjoins' hend
    exact ⟨stop, hle, hjoins.append hjoins', hend⟩

/-! ## A whole document -/

section

variable (labels) (base : Option Iri) (warnsUnused : Bool) (maxProblems : Option Nat) (input : Bytes)

/-- A source tells at last how the reading ended. -/
theorem exists_answer_isEnd :
    ∃ n e, (start base warnsUnused maxProblems input).answer labels n = some e ∧ e.isEnd := by
  obtain ⟨front, hfront, -⟩ := exists_of_readAll labels base warnsUnused input
  obtain ⟨told, e, htold, he⟩ : ∃ told e,
      (start base warnsUnused maxProblems input).outlook labels = told ++ [e] ∧ e.isEnd := by
    rw [outlook_start, hfront]
    cases maxProblems with
    | none => exact ⟨front, .finished, rfl, rfl⟩
    | some max =>
      -- The limit either leaves all events or ends them with one of its own.
      have hcuts := limitProblems_cuts front [.finished] rfl max max
      split at hcuts
      · exact ⟨front, .finished, hcuts, rfl⟩
      · obtain ⟨kept, p, rest, -, -, hlimit⟩ := hcuts
        exact ⟨kept, _, hlimit, rfl⟩
  refine ⟨told.length, e, ?_, he⟩
  rw [answer_eq (isSound_start labels base warnsUnused maxProblems input), htold]
  exact List.getElem?_concat_length

/-- The pieces that a source gives lie in the document, and once it tells that the document was read to
its end, they are the document. -/
theorem flatMap_piecesUntil (n : Nat) :
    let given := (start base warnsUnused maxProblems input).piecesUntil labels (n + 1)
    (∀ piece ∈ given, piece.start ≤ piece.stop ∧ piece.stop ≤ input.length)
      ∧ ((start base warnsUnused maxProblems input).answer labels n = some .finished →
        given.flatMap Piece.bytes = input) := by
  intro given
  have hwhole : IsWhole (start base warnsUnused maxProblems input) :=
    fun h => absurd h List.not_mem_nil
  obtain ⟨stop, hle, hjoins, hend⟩ := joins_piecesUntil
    (isSound_start labels base warnsUnused maxProblems input) hwhole n
  constructor
  · intro piece hpiece
    have := hjoins.le.2 piece hpiece
    exact ⟨this.1, Nat.le_trans this.2 hle⟩
  · intro hfinished
    rw [hjoins.flatMap_bytes, hend hfinished]
    exact List.take_of_length_le (Nat.le_refl _)

end

/-- What starts at a place in a text is stepped over to a later place in it, however it ends. -/
theorem skip_spec {skip : Bytes → Nat} (hpos : ∀ b rest, 0 < skip (b :: rest))
    (hle : ∀ bytes, skip bytes ≤ bytes.length) {input : Bytes} {i : Nat} (hi : i < input.length) :
    i < i + skip (input.drop i) ∧ i + skip (input.drop i) ≤ input.length := by
  have hlength := hle (input.drop i)
  rw [List.length_drop] at hlength
  have := hpos input[i] (input.drop (i + 1))
  rw [← List.drop_eq_getElem_cons hi] at this
  omega

/-- An escape that the text ends in counts for one byte. -/
example : Directive.stringLength (Utf8.encode "'a\\") = 3 := by decide

/-- The scan stays in the text, whatever ends too early. What it finds are matches of the pattern, one
behind the other. The pieces given to the parser are in the text, and those of a run that is not aborted
are the whole text. -/
theorem scan_and_pieces (input : Bytes) :
    (∀ i < input.length,
      (i < i + Directive.commentLength (input.drop i)
        ∧ i + Directive.commentLength (input.drop i) ≤ input.length)
      ∧ (i < i + Directive.iriLength (input.drop i)
        ∧ i + Directive.iriLength (input.drop i) ≤ input.length)
      ∧ (i < i + Directive.stringLength (input.drop i)
        ∧ i + Directive.stringLength (input.drop i) ≤ input.length))
    ∧ (Directive.scan input).Pairwise (·.stop ≤ ·.start)
    ∧ (∀ d ∈ Directive.scan input, d.start < d.stop ∧ d.stop ≤ input.length
      ∧ Directive.IsTokenStart input d.start ∧ Directive.IsMatch input d.start d.stop)
    ∧ ∀ labels base warnsUnused maxProblems,
      let s := start base warnsUnused maxProblems input
      (∃ n e, s.answer labels n = some e ∧ e.isEnd)
      ∧ ∀ n, (∀ piece ∈ s.piecesUntil labels (n + 1),
          piece.start ≤ piece.stop ∧ piece.stop ≤ input.length)
        ∧ (s.answer labels n = some .finished →
          (s.piecesUntil labels (n + 1)).flatMap Piece.bytes = input) := by
  obtain ⟨hbounds, hordered⟩ := Directive.ordered_scanFrom none 0 input
  refine ⟨?_, hordered, ?_, ?_⟩
  · intro i hi
    exact ⟨skip_spec (Directive.lengthThrough_pos _) (Directive.lengthThrough_le _) hi,
      skip_spec Directive.iriLength_pos Directive.iriLength_le hi,
      skip_spec Directive.stringLength_pos Directive.stringLength_le hi⟩
  · intro d hd
    obtain ⟨-, hlt, hle⟩ := hbounds d hd
    rw [Nat.zero_add] at hle
    exact ⟨hlt, hle, Directive.isMatch_of_mem_scan hd⟩
  · intro labels base warnsUnused maxProblems
    exact ⟨exists_answer_isEnd labels base warnsUnused maxProblems input,
      flatMap_piecesUntil labels base warnsUnused maxProblems input⟩

end TidyTrig.Trig.Source
