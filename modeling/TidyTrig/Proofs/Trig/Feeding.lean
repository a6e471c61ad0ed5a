import TidyTrig.Proofs.Events
import TidyTrig.Proofs.Trig.Lookahead
import TidyTrig.Trig.Reader

/-!
# Feeding the parser in pieces

A document is given to the parser in pieces that end wherever a directive seems to end.
`events_readFrom` says that the pieces leave no trace: but for the declarations, the events are
those of a parser that is given the document whole. What carries it is `next?_feed`: a token that
the parser reads before a piece, it reads the same after it.
-/

namespace TidyTrig.Trig

open Utf8 (byte)

/-! ## Blanks -/

theorem Cursor.skipBlank_lineFeed (ended inComment : Bool) (c : Cursor) (rest : Bytes) :
    skipBlank ended inComment c (byte '\n' :: rest) = skipBlank ended false c.newLine rest := by
  rw [skipBlank.eq_def]
  dsimp only
  rw [if_pos rfl]

/-- Blanks before a byte that is there are skipped the same when more bytes come. -/
theorem Cursor.skipBlank_append {inComment : Bool} {c c' : Cursor} {bytes rest : Bytes} {b : UInt8}
    (h : skipBlank false inComment c bytes = some (c', b :: rest)) (ended : Bool) (more : Bytes) :
    skipBlank ended inComment c (bytes ++ more) = some (c', b :: (rest ++ more)) := by
  fun_induction skipBlank false inComment c bytes with
  | case1 => cases h
  | case2 => cases h
  | case3 inComment c tail ih =>
    rw [List.cons_append, skipBlank_lineFeed]
    exact ih h
  | case4 => cases h
  | case5 => cases h
  | case6 inComment c tail hne ih =>
    rw [List.cons_append, List.cons_append, skipBlank.eq_def]
    dsimp only
    rw [if_neg (by decide), if_pos rfl, if_pos rfl]
    exact ih h
  | case7 inComment c b' tail hne hne' ih =>
    rw [List.cons_append, List.cons_append, skipBlank.eq_def]
    dsimp only
    rw [if_neg hne', if_pos rfl, if_neg hne]
    exact ih h
  | case8 inComment c b' tail hne hne' hblank ih =>
    rw [List.cons_append, skipBlank.eq_def]
    dsimp only
    rw [if_neg hne, if_neg hne', if_pos hblank]
    exact ih h
  | case9 inComment c tail hne hne' hblank ih =>
    rw [List.cons_append, skipBlank.eq_def]
    dsimp only
    rw [if_neg (by decide), if_neg (by decide), if_neg hblank, if_pos rfl]
    exact ih h
  | case10 inComment c b' tail hne hne' hblank hhash =>
    cases h
    rw [List.cons_append, skipBlank.eq_def]
    dsimp only
    rw [if_neg hne, if_neg hne', if_neg hblank, if_neg hhash]

namespace Parser

variable (labels : Nat → String)

/-! ## One token -/

/-- A token that was read before more bytes came is read the same after. -/
theorem readToken_append {p p' : Parser} {b : UInt8} {rest : Bytes} {events : List Event}
    (h : p.readToken labels false b rest = some (events, p')) (ended : Bool) (more : Bytes) :
    p.readToken labels ended b (rest ++ more) = some (events, p'.feed more) := by
  have hkept := isKept_scan p.recognition.base ended b rest more
  have hfits := fits_scan p.recognition.base false b rest
  unfold readToken at h ⊢
  rcases hkept with hwait | hkept
  · rw [hwait] at h
    cases h
  · rw [hkept]
    rw [← List.cons_append]
    revert h hfits
    cases scan p.recognition.base false b rest with
    | wait =>
      intro h
      cases h
    | fault cause offset size =>
      intro h hfits
      simp only [Scan.Fits] at hfits
      dsimp only at h ⊢
      rw [List.take_append_of_le_length (by rw [List.length_cons]; omega),
        List.take_append_of_le_length (by rw [List.length_cons]; omega),
        List.drop_append_of_le_length (by omega)]
      cases h
      rfl
    | found t size =>
      intro h hfits
      simp only [Scan.Fits] at hfits
      dsimp only at h ⊢
      rw [List.take_append_of_le_length (by rw [List.length_cons]; omega),
        List.drop_append_of_le_length (by omega)]
      cases h
      rfl

theorem next?_feed {p p' : Parser} {events : List Event}
    (h : p.next? labels false = some (events, p')) (ended : Bool) (more : Bytes) :
    (p.feed more).next? labels ended = some (events, p'.feed more) := by
  unfold next? at h
  split at h
  · next cursor b rest hskip =>
    unfold next? feed
    dsimp only
    rw [Cursor.skipBlank_append hskip]
    exact readToken_append labels h ended more
  · cases h

/-! ## All tokens -/

theorem drain_of_none {p : Parser} {ended : Bool} (h : p.next? labels ended = none) :
    p.drain labels ended = ([], p) := by
  rw [drain]
  split
  · rfl
  · next hsome =>
    rw [h] at hsome
    cases hsome

theorem drain_of_some {p p' : Parser} {ended : Bool} {events : List Event}
    (h : p.next? labels ended = some (events, p')) :
    p.drain labels ended
      = (events ++ (p'.drain labels ended).1, (p'.drain labels ended).2) := by
  rw [drain]
  split
  · next hnone =>
    rw [h] at hnone
    cases hnone
  · next hsome =>
    rw [h] at hsome
    cases hsome
    rfl

/-- All that follows from some bytes comes first, whatever comes later. -/
theorem drain_feed (p : Parser) (ended : Bool) (more : Bytes) :
    (p.feed more).drain labels ended
      = ((p.drain labels false).1 ++ (((p.drain labels false).2.feed more).drain labels ended).1,
        (((p.drain labels false).2.feed more).drain labels ended).2) := by
  induction hn : p.unread.length using Nat.strongRecOn generalizing p with
  | _ n ih =>
    cases hnext : p.next? labels false with
    | none =>
      rw [drain_of_none labels hnext]
      rfl
    | some next =>
      obtain ⟨events, p'⟩ := next
      have hlength := length_lt_of_next? hnext
      rw [drain_of_some labels hnext, drain_of_some labels (next?_feed labels hnext ended more),
        ih _ (by omega) p' rfl, List.append_assoc]

/-- The end of the document is read the same after what could be read before. -/
theorem close_feed (p : Parser) (more : Bytes) :
    (p.feed more).close labels
      = (p.drain labels false).1 ++ ((p.drain labels false).2.feed more).close labels := by
  have h := drain_feed labels p true more
  unfold close
  rw [h]
  generalize ((p.drain labels false).2.feed more).drain labels true = later
  dsimp only
  split
  · rw [List.append_assoc]
  · rfl

theorem feed_nil (p : Parser) : p.feed [] = p := by
  rw [feed, List.append_nil]

theorem feed_feed (p : Parser) (bytes more : Bytes) :
    (p.feed bytes).feed more = p.feed (bytes ++ more) := by
  rw [feed, feed, feed, List.append_assoc]

/-- What a parser yields of the bytes up to an offset, and where it is then, also when it was given
them in two pieces: `given` is the offset of what it is given next. -/
theorem drain_take (p : Parser) (rest : Bytes) {given stop stop' : Nat} (h : given ≤ stop)
    (h' : stop ≤ stop') :
    (p.feed (rest.take (stop' - given))).drain labels false
      = (((p.feed (rest.take (stop - given))).drain labels false).1
          ++ (((((p.feed (rest.take (stop - given))).drain labels false).2).feed
            ((rest.drop (stop - given)).take (stop' - stop))).drain labels false).1,
        (((((p.feed (rest.take (stop - given))).drain labels false).2).feed
            ((rest.drop (stop - given)).take (stop' - stop))).drain labels false).2) := by
  have hpieces : rest.take (stop - given) ++ (rest.drop (stop - given)).take (stop' - stop)
      = rest.take (stop' - given) := by
    rw [← List.take_add]
    congr 1
    omega
  have hwhole := drain_feed labels (p.feed (rest.take (stop - given))) false
    ((rest.drop (stop - given)).take (stop' - stop))
  rw [feed_feed, hpieces] at hwhole
  exact hwhole

/-! ## What the parser yields -/

/-- What a parser yields: the fault of a token, a fault of what a token stands for, or a statement. -/
inductive IsYielded : Event → Prop
  | ofToken (cursor : Cursor) (fault : Token.Fault) : IsYielded (problemAt cursor fault.message)
  | ofMeaning (cursor : Cursor) (fault : SyntaxFault) (token : String) :
    IsYielded (problemAt cursor (fault.message token))
  | statement (s : Statement) : IsYielded (.statement s)

theorem isYielded_report (cursor : Cursor) (token : Bytes) (r : Recognition) :
    ∀ e ∈ report cursor token r, IsYielded e := by
  intro e he
  unfold report at he
  rcases List.mem_append.1 he with he | he
  · obtain ⟨fault, -, rfl⟩ := List.mem_map.1 he
    exact .ofMeaning _ _ _
  · obtain ⟨s, -, rfl⟩ := List.mem_map.1 he
    exact .statement s

theorem isYielded_readToken {p p' : Parser} {ended : Bool} {b : UInt8} {rest : Bytes}
    {events : List Event} (h : p.readToken labels ended b rest = some (events, p')) :
    ∀ e ∈ events, IsYielded e := by
  unfold readToken at h
  split at h
  · split at h
    · cases h
      intro e he
      rw [List.mem_singleton.1 he]
      exact .ofToken _ _
    · cases h
  · cases h
    intro e he
    rw [List.mem_singleton.1 he]
    exact .ofToken _ _
  · cases h
    exact isYielded_report _ _ _

theorem isYielded_next? {p p' : Parser} {ended : Bool} {events : List Event}
    (h : p.next? labels ended = some (events, p')) : ∀ e ∈ events, IsYielded e := by
  unfold next? at h
  split at h
  · exact isYielded_readToken labels h
  · cases h

theorem isYielded_drain (p : Parser) (ended : Bool) :
    ∀ e ∈ (p.drain labels ended).1, IsYielded e := by
  induction hn : p.unread.length using Nat.strongRecOn generalizing p with
  | _ n ih =>
    cases hnext : p.next? labels ended with
    | none =>
      rw [drain_of_none labels hnext]
      intro e he
      cases he
    | some next =>
      obtain ⟨events, p'⟩ := next
      have hlength := length_lt_of_next? hnext
      rw [drain_of_some labels hnext]
      dsimp only
      intro e he
      rcases List.mem_append.1 he with he | he
      · exact isYielded_next? labels hnext e he
      · exact ih _ (by omega) p' rfl e he

theorem isYielded_close (p : Parser) : ∀ e ∈ p.close labels, IsYielded e := by
  intro e he
  unfold close at he
  generalize hdrain : p.drain labels true = last at he
  obtain ⟨events, p'⟩ := last
  have hevents : ∀ e ∈ events, IsYielded e := by
    have h := isYielded_drain labels p true
    rw [hdrain] at h
    exact h
  dsimp only at he
  split at he
  · rcases List.mem_append.1 he with he | he
    · exact hevents e he
    · exact isYielded_report _ _ _ e he
  · exact hevents e he

theorem IsYielded.isStatementOrError {e : Event} (h : IsYielded e) : e.isStatementOrError := by
  cases h <;> rfl

theorem isStatementOrError_next? {p p' : Parser} {ended : Bool} {events : List Event}
    (h : p.next? labels ended = some (events, p')) : ∀ e ∈ events, e.isStatementOrError :=
  fun e he => (isYielded_next? labels h e he).isStatementOrError

theorem isStatementOrError_drain (p : Parser) (ended : Bool) :
    ∀ e ∈ (p.drain labels ended).1, e.isStatementOrError :=
  fun e he => (isYielded_drain labels p ended e he).isStatementOrError

theorem isStatementOrError_close (p : Parser) : ∀ e ∈ p.close labels, e.isStatementOrError :=
  fun e he => (isYielded_close labels p e he).isStatementOrError

theorem isParsed_drain (p : Parser) (ended : Bool) :
    ∀ e ∈ (p.drain labels ended).1, e.isParsed := fun e he =>
  Event.isParsed_of_isStatementOrError (isStatementOrError_drain labels p ended e he)

theorem isParsed_close (p : Parser) : ∀ e ∈ p.close labels, e.isParsed := fun e he =>
  Event.isParsed_of_isStatementOrError (isStatementOrError_close labels p e he)

end Parser

/-! ## The whole document -/

variable (labels : Nat → String)

/-- But for declarations, reading by pieces yields what reading the whole yields. -/
theorem events_readFrom (p : Parser) (given : Nat) (rest : Bytes) (directives : List Directive) :
    (readFrom labels p given rest directives).filter Event.isParsed
      = (p.feed rest).close labels := by
  have hall : ∀ events : List Event, (∀ e ∈ events, e.isParsed) →
      events.filter Event.isParsed = events := fun events h => List.filter_eq_self.2 h
  induction directives generalizing p given rest with
  | nil =>
    have h := Parser.close_feed labels (p.feed rest) []
    rw [Parser.feed_nil, Parser.feed_nil] at h
    rw [readFrom, h, List.filter_append, hall _ (Parser.isParsed_drain labels _ _),
      hall _ (Parser.isParsed_close labels _)]
  | cons d ds ih =>
    have h := Parser.close_feed labels (p.feed (rest.take (d.stop - given)))
      (rest.drop (d.stop - given))
    rw [Parser.feed_feed, List.take_append_drop] at h
    rw [readFrom, h, List.filter_append, hall _ (Parser.isParsed_drain labels _ _)]
    rw [List.filter_cons_of_neg (by nofun), ih]

theorem isEnd_readFrom (p : Parser) (given : Nat) (rest : Bytes) (directives : List Directive) :
    ∀ e ∈ readFrom labels p given rest directives, e.isEnd = false := by
  induction directives generalizing p given rest with
  | nil =>
    rw [readFrom]
    intro e he
    rcases List.mem_append.1 he with he | he
    · exact Event.isEnd_of_isParsed (Parser.isParsed_drain labels _ _ e he)
    · exact Event.isEnd_of_isParsed (Parser.isParsed_close labels _ e he)
  | cons d ds ih =>
    rw [readFrom]
    intro e he
    rcases List.mem_append.1 he with he | he
    · exact Event.isEnd_of_isParsed (Parser.isParsed_drain labels _ _ e he)
    · rcases List.mem_cons.1 he with rfl | he
      · rfl
      · exact ih _ _ _ e he

end TidyTrig.Trig
