import TidyTrig.Proofs.Trig.Feeding

/-!
# Reading without a problem

`Reads labels r bytes statements r' rest` says that from the state `r` the tokens of some bytes up
to `rest` are read without a fault, complete these statements and lead to the state `r'`. It does
not mention positions: where all goes well, no event depends on them. `events_of_reads` is what a
whole document yields then.
-/

namespace TidyTrig.Trig

open Utf8 (byte)

/-! ## Blanks -/

/-- Only blanks and comments stand before the rest. -/
def Skips (bytes rest : Bytes) : Prop :=
  ∀ c : Cursor, ∃ c' : Cursor, c.skipBlank true false bytes = c'.skipBlank true false rest

namespace Skips

theorem refl (bytes : Bytes) : Skips bytes bytes := fun c => ⟨c, rfl⟩

theorem trans {a b c : Bytes} (h : Skips a b) (h' : Skips b c) : Skips a c := by
  intro cursor
  obtain ⟨cursor', hab⟩ := h cursor
  obtain ⟨cursor'', hbc⟩ := h' cursor'
  exact ⟨cursor'', hab.trans hbc⟩

theorem lineFeed (rest : Bytes) : Skips (byte '\n' :: rest) rest :=
  fun c => ⟨c.newLine, Cursor.skipBlank_lineFeed true false c rest⟩

/-- A space or a tab is skipped. -/
theorem blank {b : UInt8} (hb : b = byte ' ' ∨ b = byte '\t') (rest : Bytes) :
    Skips (b :: rest) rest := by
  intro c
  refine ⟨c.pass b, ?_⟩
  rw [Cursor.skipBlank.eq_def]
  rcases hb with rfl | rfl
  · dsimp only
    rw [if_neg (by decide), if_neg (by decide), if_pos (by decide)]
  · dsimp only
    rw [if_neg (by decide), if_neg (by decide), if_pos (by decide)]

theorem space (rest : Bytes) : Skips (byte ' ' :: rest) rest := blank (.inl rfl) rest

/-- Any number of spaces and tabs are skipped. -/
theorem blanks {gap : Bytes} (hgap : ∀ b ∈ gap, b = byte ' ' ∨ b = byte '\t') (rest : Bytes) :
    Skips (gap ++ rest) rest := by
  induction gap with
  | nil => exact refl rest
  | cons b gap ih =>
    rw [List.cons_append]
    exact (blank (hgap b List.mem_cons_self) _).trans
      (ih fun b hb => hgap b (List.mem_cons_of_mem _ hb))

end Skips

/-- Whether a byte is the first of a token: it is no blank and opens no comment. -/
def opensToken (b : UInt8) : Bool :=
  !(b = byte '\n' || b = byte '\r' || b = byte ' ' || b = byte '\t' || b = byte '#')

theorem skipBlank_of_opensToken {b : UInt8} (hb : opensToken b) (ended : Bool) (c : Cursor)
    (rest : Bytes) : c.skipBlank ended false (b :: rest) = some (c, b :: rest) := by
  simp only [opensToken, Bool.not_eq_true', Bool.or_eq_false_iff, decide_eq_false_iff_not] at hb
  rw [Cursor.skipBlank.eq_def]
  dsimp only
  rw [if_neg hb.1.1.1.1, if_neg hb.1.1.1.2, if_neg (by simp [hb.1.1.2, hb.1.2]), if_neg hb.2]

/-! ## Runs -/

/-- What is read without a fault. -/
inductive Reads (labels : Nat → String) :
    Recognition → Bytes → List Statement → Recognition → Bytes → Prop
  | blanks {r : Recognition} {bytes rest : Bytes} (h : Skips bytes rest) :
    Reads labels r bytes [] r rest
  | token {r r' : Recognition} {bytes tail rest : Bytes} {b : UInt8} {t : Token} {size : Nat}
    {statements : List Statement} (hskips : Skips bytes (b :: tail)) (hopens : opensToken b)
    (hscan : scan r.base true b tail = .found t size) (hfaults : (r.accept labels t).faults = [])
    (hlater : Reads labels (r.accept labels t).cleared (tail.drop (size - 1)) statements r' rest) :
    Reads labels r bytes ((r.accept labels t).statements ++ statements) r' rest

namespace Reads

variable {labels : Nat → String}

theorem trans {r r' r'' : Recognition} {bytes rest rest' : Bytes} {ss ss' : List Statement}
    (h : Reads labels r bytes ss r' rest) (h' : Reads labels r' rest ss' r'' rest') :
    Reads labels r bytes (ss ++ ss') r'' rest' := by
  induction h with
  | blanks hskips =>
    cases h' with
    | blanks hskips' => exact .blanks (hskips.trans hskips')
    | token hskips' hopens hscan hfaults hlater =>
      exact .token (hskips.trans hskips') hopens hscan hfaults hlater
  | token hskips hopens hscan hfaults _ ih =>
    rw [List.append_assoc]
    exact .token hskips hopens hscan hfaults (ih h')

end Reads

/-! ## What a run yields -/

variable (labels : Nat → String)

theorem problemsOf_report_eq (r : Recognition) (cursor : Cursor) (token : Bytes) :
    problemsOf (Parser.report cursor token r) = r.faults.map fun fault =>
      ⟨.error, fault.message (Utf8.decodeLossy token), cursor.line + 1, cursor.column⟩ := by
  have hstatements : problemsOf (r.statements.map Event.statement) = [] := by
    rw [problemsOf, List.filterMap_map]
    exact List.filterMap_eq_nil_iff.2 fun _ _ => rfl
  rw [Parser.report, problemsOf_append, hstatements, List.append_nil, problemsOf, List.filterMap_map]
  exact List.filterMap_eq_map ▸ rfl

theorem problemsOf_report {r : Recognition} (h : r.faults = []) (cursor : Cursor)
    (token : Bytes) : problemsOf (Parser.report cursor token r) = [] := by
  rw [problemsOf_report_eq, h, List.map_nil]

theorem statementsOf_report (r : Recognition) (cursor : Cursor) (token : Bytes) :
    statementsOf (Parser.report cursor token r) = r.statements := by
  rw [Parser.report, statementsOf_append]
  have hfaults : ∀ faults : List SyntaxFault, statementsOf (faults.map fun fault =>
      Parser.problemAt cursor (fault.message (Utf8.decodeLossy token))) = [] := by
    intro faults
    rw [statementsOf, List.filterMap_map]
    exact List.filterMap_eq_nil_iff.2 fun fault _ => rfl
  have hstatements : ∀ ss : List Statement, statementsOf (ss.map Event.statement) = ss := by
    intro ss
    rw [statementsOf, List.filterMap_map]
    exact List.filterMap_some
  rw [hfaults, hstatements, List.nil_append]

namespace Parser

theorem close_of_none {p : Parser} {cursor : Cursor} {rest : Bytes}
    (h : p.next? labels true = none)
    (hskip : p.cursor.skipBlank true false p.unread = some (cursor, rest)) :
    p.close labels = report cursor [] p.recognition.close := by
  unfold close
  rw [drain_of_none labels h]
  dsimp only
  rw [hskip]
  rfl

theorem close_of_some {p p' : Parser} {events : List Event}
    (h : p.next? labels true = some (events, p')) :
    p.close labels = events ++ p'.close labels := by
  unfold close
  rw [drain_of_some labels h]
  generalize p'.drain labels true = last
  dsimp only
  split
  · rw [List.append_assoc]
  · rfl

/-- Blanks in front have no effect but on positions. -/
theorem next?_of_skips {c c' : Cursor} {bytes rest : Bytes}
    (h : c.skipBlank true false bytes = c'.skipBlank true false rest) (r : Recognition) :
    (Parser.mk bytes c r).next? labels true = (Parser.mk rest c' r).next? labels true := by
  unfold next?
  dsimp only
  rw [h]
  rcases c'.skipBlank true false rest with _ | ⟨cursor, _ | ⟨b, tail⟩⟩ <;> rfl

/-- The token after blanks is taken, and the bytes after it are left. -/
theorem next?_of_found {cursor next : Cursor} {bytes tail : Bytes} {b : UInt8} {r : Recognition}
    {t : Token} {size : Nat} (hskip : cursor.skipBlank true false bytes = some (next, b :: tail))
    (hscan : scan r.base true b tail = .found t size) :
    (Parser.mk bytes cursor r).next? labels true
      = some (report next ((b :: tail).take size) (r.accept labels t),
        ⟨tail.drop (size - 1), next.through ((b :: tail).take size),
          (r.accept labels t).cleared⟩) := by
  unfold next? readToken
  dsimp only
  rw [hskip]
  dsimp only
  rw [hscan]

/-- What is read first comes first, whatever becomes of the rest. -/
theorem close_of_reads {r r' : Recognition} {bytes rest : Bytes} {ss : List Statement}
    (h : Reads labels r bytes ss r' rest) (cursor : Cursor) :
    ∃ events cursor', problemsOf events = [] ∧ statementsOf events = ss ∧
      close labels ⟨bytes, cursor, r⟩ = events ++ close labels ⟨rest, cursor', r'⟩ := by
  induction h generalizing cursor with
  | @blanks r bytes rest hskips =>
    obtain ⟨cursor', hskip⟩ := hskips cursor
    refine ⟨[], cursor', rfl, rfl, ?_⟩
    have hnext := next?_of_skips labels hskip r
    rw [List.nil_append]
    cases hsome : (Parser.mk rest cursor' r).next? labels true with
    | some next =>
      obtain ⟨events, p'⟩ := next
      rw [close_of_some labels hsome, close_of_some labels (hnext.trans hsome)]
    | none =>
      unfold close
      rw [drain_of_none labels hsome, drain_of_none labels (hnext.trans hsome)]
      dsimp only
      rw [hskip]
  | @token r r' bytes tail rest b t size statements hskips hopens hscan hfaults _ ih =>
    obtain ⟨cursor₁, hskip⟩ := hskips cursor
    rw [skipBlank_of_opensToken hopens] at hskip
    have hread := next?_of_found labels hskip hscan
    obtain ⟨events, cursor', hproblems, hstatements, hclose⟩ :=
      ih (cursor₁.through ((b :: tail).take size))
    refine ⟨report cursor₁ ((b :: tail).take size) (r.accept labels t) ++ events, cursor', ?_, ?_, ?_⟩
    · rw [problemsOf_append, problemsOf_report hfaults, hproblems, List.nil_append]
    · rw [statementsOf_append, statementsOf_report, hstatements]
    · rw [close_of_some labels hread, hclose, List.append_assoc]

end Parser

/-! ## Whole documents -/

/-- A document that is read without a fault to its end, between statements. -/
theorem close_of_document {base : Option Iri} {bytes rest : Bytes} {ss : List Statement}
    {r : Recognition} (h : Reads labels (.start base) bytes ss r rest) (hrest : Skips rest [])
    (hgoals : r.goals = [.document]) (hfaults : r.faults = []) (hstatements : r.statements = []) :
    problemsOf ((Parser.start base).feed bytes |>.close labels) = []
      ∧ statementsOf ((Parser.start base).feed bytes |>.close labels) = ss := by
  obtain ⟨events, cursor, hproblems, hss, hclose⟩ := Parser.close_of_reads labels h .start
  obtain ⟨cursor', hskip⟩ := hrest cursor
  have hend : Parser.close labels ⟨rest, cursor, r⟩ = [] := by
    have hnext : (Parser.mk rest cursor r).next? labels true = none := by
      rw [Parser.next?_of_skips labels hskip]
      rfl
    have hclosed : r.close = r := by
      rw [Recognition.close, hgoals]
    rw [Parser.close_of_none labels hnext (hskip.trans rfl), Parser.report]
    show List.map _ r.close.faults ++ List.map _ r.close.statements = []
    rw [hclosed, hfaults, hstatements]
    rfl
  have hfeed : (Parser.start base).feed bytes = ⟨bytes, .start, .start base⟩ := by
    rw [Parser.start, Parser.feed, List.nil_append]
  rw [hfeed, hclose, hend, List.append_nil]
  exact ⟨hproblems, hss⟩

/-! ## Limits -/

/-- What is no problem passes a limit. -/
theorem limitProblems_cons_of_none {e : Event} (h : e.problem? = none) (max n : Nat)
    (rest : List Event) :
    limitProblems max n (e :: rest) = e :: limitProblems max n rest := by
  cases e with
  | problem p => cases h
  | _ => simp only [limitProblems]

/-- What holds no problem passes a limit. -/
theorem limitProblems_append {front : List Event} (h : problemsOf front = []) (max n : Nat)
    (rest : List Event) : limitProblems max n (front ++ rest) = front ++ limitProblems max n rest := by
  induction front with
  | nil => rfl
  | cons e front ih =>
    rw [problemsOf_cons, List.append_eq_nil_iff] at h
    rw [List.cons_append, limitProblems_cons_of_none (Option.toList_eq_nil_iff.1 h.1), ih h.2,
      List.cons_append]

/-- Without problems no limit is met. -/
theorem limitProblems_of_none {events : List Event} (h : problemsOf events = []) (max n : Nat) :
    limitProblems max n events = events := by
  have hall := limitProblems_append h max n []
  rw [List.append_nil] at hall
  rw [hall, limitProblems, List.append_nil]

/-- What holds no more problems than the limit allows is kept, and anything else is cut before the
problem that is one too many, whatever follows it without a problem. -/
theorem limitProblems_cuts (events tail : List Event) (htail : problemsOf tail = [])
    (max n : Nat) :
    if (problemsOf events).length ≤ n then limitProblems max n (events ++ tail) = events ++ tail
    else ∃ kept p rest, events = kept ++ .problem p :: rest ∧ (problemsOf kept).length = n
      ∧ limitProblems max n (events ++ tail)
        = kept ++ [.aborted s!"too many problems (limit {max})"] := by
  induction events generalizing n with
  | nil => simp [limitProblems_of_none htail]
  | cons e events ih =>
    cases hproblem : e.problem? with
    | none =>
      have ih := ih n
      simp only [problemsOf_cons, hproblem, Option.toList_none, List.nil_append, List.cons_append,
        limitProblems_cons_of_none hproblem]
      split at ih
      · next hle => rw [if_pos hle, ih]
      · next hle =>
        obtain ⟨kept, p, rest, hevents, hcount, hlimit⟩ := ih
        rw [if_neg hle]
        refine ⟨e :: kept, p, rest, by rw [hevents, List.cons_append], ?_, ?_⟩
        · rw [problemsOf_cons, hproblem]
          exact hcount
        · rw [hlimit, List.cons_append]
    | some p =>
      have he : e = .problem p := by
        cases e <;> first | cases hproblem; rfl | cases hproblem
      subst he
      cases n with
      | zero =>
        -- Nothing is left of the limit.
        rw [if_neg (by simp [hproblem])]
        exact ⟨[], p, events, rfl, rfl, rfl⟩
      | succ n =>
        have ih := ih n
        simp only [problemsOf_cons, hproblem, Option.toList_some, List.cons_append,
          List.nil_append, List.length_cons, limitProblems, Nat.add_le_add_iff_right]
        split at ih
        · next hle => rw [if_pos hle, ih]
        · next hle =>
          obtain ⟨kept, q, rest, hevents, hcount, hlimit⟩ := ih
          rw [if_neg hle]
          refine ⟨.problem p :: kept, q, rest, by rw [hevents, List.cons_append], ?_, ?_⟩
          · rw [problemsOf_cons, List.length_append, hcount]
            exact Nat.add_comm 1 n
          · rw [hlimit, List.cons_append]

/-- A limit cuts declarations off, and adds none. -/
theorem declarationsOf_limitProblems_prefix (events : List Event) (max n : Nat) :
    declarationsOf (limitProblems max n events) <+: declarationsOf events := by
  have hcuts := limitProblems_cuts events [] problemsOf_nil max n
  rw [List.append_nil] at hcuts
  split at hcuts
  · simp [hcuts]
  · obtain ⟨kept, p, rest, hevents, -, hlimit⟩ := hcuts
    rw [hlimit, hevents, declarationsOf_append, declarationsOf_append]
    exact List.prefix_append_right_inj _ |>.2 List.nil_prefix

/-! ## Faults of the whole -/

/-- What a document as a whole is faulted for are problems. -/
theorem exists_of_mem_undecodable {bytes : Bytes} {events : List Event} {e : Event}
    (h : e ∈ undecodable bytes events) : ∃ p, e = .problem p := by
  unfold undecodable at h
  dsimp only at h
  split at h
  · split at h
    · cases h
    · exact ⟨_, List.mem_singleton.1 h⟩
  · cases h

theorem exists_of_mem_unused {declared : List (Namespace × Nat)} {iris : List String} {e : Event}
    (h : e ∈ unused declared iris) : ∃ p, e = .problem p ∧ p.isError = false := by
  obtain ⟨d, -, rfl⟩ := List.mem_map.1 h
  exact ⟨_, rfl, rfl⟩

/-- Warnings come last, after all that is told of a document without them. -/
theorem exists_warnings_of_readAll (base : Option Iri) (bytes : Bytes) (warnsUnused : Bool) :
    ∃ front warnings, readAll labels base false bytes = front ++ [.finished]
      ∧ readAll labels base warnsUnused bytes = front ++ warnings ++ [.finished]
      ∧ ∀ e ∈ warnings, ∃ p, e = .problem p ∧ p.isError = false := by
  unfold readAll
  dsimp only
  refine ⟨_, _, by rw [if_neg Bool.false_ne_true, List.append_nil], rfl, ?_⟩
  intro e he
  split at he
  · exact exists_of_mem_unused he
  · cases he

/-- Reading tells at last, and then only, that the document was read to its end. -/
theorem exists_of_readAll (base : Option Iri) (warnsUnused : Bool) (bytes : Bytes) :
    ∃ events, readAll labels base warnsUnused bytes = events ++ [.finished]
      ∧ ∀ e ∈ events, e.isEnd = false := by
  refine ⟨_, rfl, ?_⟩
  intro e he
  rcases List.mem_append.1 he with he | he
  · rcases List.mem_append.1 he with he | he
    · exact isEnd_readFrom labels _ _ _ _ e he
    · obtain ⟨p, rfl⟩ := exists_of_mem_undecodable he
      rfl
  · split at he
    · obtain ⟨p, rfl, -⟩ := exists_of_mem_unused he
      rfl
    · cases he

/-- What the document as a whole is faulted for adds no statement to those of the parser. -/
theorem statementsOf_readAll (base : Option Iri) (warnsUnused : Bool) (bytes : Bytes) :
    statementsOf (readAll labels base warnsUnused bytes)
      = statementsOf ((Parser.start base).feed bytes |>.close labels) := by
  have hundecodable : ∀ events, statementsOf (undecodable bytes events) = [] := fun _ =>
    statementsOf_of_problems fun _ => exists_of_mem_undecodable
  have hunused : ∀ spaces iris, statementsOf (unused spaces iris) = [] := fun _ _ =>
    statementsOf_of_problems fun _ he => (exists_of_mem_unused he).imp fun _ => And.left
  unfold readAll
  dsimp only
  rw [statementsOf_append, statementsOf_append, statementsOf_append, hundecodable,
    ← statementsOf_filter_isParsed (readFrom _ _ _ _ _), events_readFrom]
  cases warnsUnused with
  | false => simp [Event.statement?]
  | true => simp [hunused, Event.statement?]

/-! ## The problems of a document -/

/-- The errors that the parser reports of a document. -/
def parserErrors (base : Option Iri) (bytes : Bytes) : List Problem :=
  problemsOf (((Parser.start base).feed bytes).close labels)

theorem kind_of_mem_parserErrors {base : Option Iri} {bytes : Bytes} {p : Problem}
    (h : p ∈ parserErrors labels base bytes) : p.kind = .error := by
  obtain ⟨e, he, hproblem⟩ := List.mem_filterMap.1 h
  have hyielded := Parser.isYielded_close labels _ e he
  cases hyielded <;> cases hproblem <;> rfl

theorem problemLines_eq (events : List Event) :
    problemLines events = (problemsOf events).map Problem.line := by
  rw [problemLines, problemsOf, List.map_filterMap]
  congr 1
  funext e
  cases e <;> rfl

/-- The problem that bytes are no text from an offset on. -/
def undecodableAt (bytes : Bytes) (offset : Nat) : Problem :=
  ⟨.error, "Invalid UTF-8 byte sequence", lineOf bytes offset, columnOf bytes offset⟩

/-- What the document as a whole adds to the errors of the parser. -/
def lateErrors (bytes : Bytes) (errors : List Problem) : List Problem :=
  match Utf8.fault? bytes with
  | some fault =>
    if (lineOf bytes fault.offset : Int) ∈ errors.map Problem.line then []
    else [undecodableAt bytes fault.offset]
  | none => []

theorem kind_of_mem_lateErrors {bytes : Bytes} {errors : List Problem} {p : Problem}
    (h : p ∈ lateErrors bytes errors) : p.kind = .error := by
  unfold lateErrors at h
  split at h
  · split at h
    · cases h
    · rw [List.mem_singleton.1 h]
      rfl
  · cases h

theorem problemsOf_undecodable (bytes : Bytes) (events : List Event) :
    problemsOf (undecodable bytes events) = lateErrors bytes (problemsOf events) := by
  unfold undecodable lateErrors
  rw [problemLines_eq]
  cases Utf8.fault? bytes with
  | none => rfl
  | some fault =>
    dsimp only
    split <;> rfl

/-- The problems of a document: those of the parser, the one that it is no text, and warnings. -/
theorem problemsOf_readAll_eq_append (base : Option Iri) (warnsUnused : Bool) (bytes : Bytes) :
    ∃ warnings, problemsOf (readAll labels base warnsUnused bytes)
        = parserErrors labels base bytes
          ++ lateErrors bytes (parserErrors labels base bytes) ++ warnings
      ∧ (∀ p ∈ warnings, p.kind = .warning ∧ p.column = Problem.unknownColumn
        ∧ ∃ space : Namespace, p.message = "Unused prefix '" ++ space.name ++ ":'")
      ∧ (warnsUnused = false → warnings = []) := by
  have hparser : problemsOf (readFrom labels (.start base) 0 bytes (Directive.scan bytes))
      = parserErrors labels base bytes := by
    rw [← problemsOf_filter_isParsed, events_readFrom]
    rfl
  unfold readAll
  dsimp only
  generalize hwarnings : (if warnsUnused then _ else []) = warnings
  refine ⟨problemsOf warnings, ?_, ?_, ?_⟩
  · rw [problemsOf_append, problemsOf_append, problemsOf_append, problemsOf_undecodable, hparser]
    exact List.append_nil _
  · intro p hp
    obtain ⟨e, he, hproblem⟩ := List.mem_filterMap.1 hp
    rw [← hwarnings] at he
    split at he
    · obtain ⟨d, -, rfl⟩ := List.mem_map.1 he
      cases hproblem
      exact ⟨rfl, rfl, d.1, rfl⟩
    · cases he
  · rintro rfl
    rw [← hwarnings]
    rfl

/-- Without warnings, all problems are errors: those of the parser and the one of the whole. -/
theorem problemsOf_readAll_eq_errors (base : Option Iri) (bytes : Bytes) :
    problemsOf (readAll labels base false bytes)
      = parserErrors labels base bytes ++ lateErrors bytes (parserErrors labels base bytes) := by
  obtain ⟨warnings, hproblems, -, hnone⟩ := problemsOf_readAll_eq_append labels base false bytes
  rw [hproblems, hnone rfl, List.append_nil]

/-- The problems of a text are those that the parser finds, if no warnings are asked for. -/
theorem problemsOf_readAll (base : Option Iri) (text : String) :
    problemsOf (readAll labels base false (Utf8.encode text))
      = problemsOf ((Parser.start base).feed (Utf8.encode text) |>.close labels) := by
  rw [problemsOf_readAll_eq_errors, lateErrors, Utf8.fault?_encode]
  exact List.append_nil _

/-- The events of a text that is read without a fault to its end, without warnings. -/
theorem readAll_of_reads {base : Option Iri} {text : String} {rest : Bytes} {ss : List Statement}
    {r : Recognition} (h : Reads labels (.start base) (Utf8.encode text) ss r rest)
    (hrest : Skips rest []) (hgoals : r.goals = [.document]) (hfaults : r.faults = [])
    (hstatements : r.statements = []) :
    problemsOf (readAll labels base false (Utf8.encode text)) = []
      ∧ statementsOf (readAll labels base false (Utf8.encode text)) = ss := by
  rw [problemsOf_readAll, statementsOf_readAll]
  exact close_of_document labels h hrest hgoals hfaults hstatements

end TidyTrig.Trig
