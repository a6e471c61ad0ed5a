import TidyTrig.Proofs.Trig.LineEnds
import TidyTrig.Proofs.Trig.Unused
import TidyTrig.Proofs.Undecodable

/-!
# Two ways to count lines

The parser counts as lines what ends with a line feed, a carriage return or the two together. What a
document as a whole is faulted for is placed by `lineOf`, which counts line feeds. So the two differ by
the carriage returns that stand alone, and by what the parser miscounts where bytes are no token: it
passes over them as a whole, without a look at what is around (`surplus`). Tokens are counted right.

`Parser.places` tells where the problems of a document lie, and how far the parser's count is off there.
The lines that it reports follow from that (`forall_liesAt_close`), and where the two ways agree
(`yields_lines`).
-/

namespace TidyTrig.Trig

open Utf8

/-! ## Line ends in bytes -/

/-- How many carriage returns no line feed follows, if these bytes stand before `after`. -/
def loneReturns (after : Bytes) : Bytes → Nat
  | [] => 0
  | b :: rest =>
    (if b = byte '\r' ∧ (rest ++ after).head? ≠ some (byte '\n') then 1 else 0)
      + loneReturns after rest

/-- How many lines end in bytes that stand before `after`. -/
def lineCount (after bytes : Bytes) : Nat := bytes.count (byte '\n') + loneReturns after bytes

theorem loneReturns_append (after front back : Bytes) :
    loneReturns after (front ++ back)
      = loneReturns (back ++ after) front + loneReturns after back := by
  induction front with
  | nil => exact (Nat.zero_add _).symm
  | cons b front ih =>
    rw [List.cons_append, loneReturns, loneReturns, ih, List.append_assoc, Nat.add_assoc]

theorem lineCount_append (after front back : Bytes) :
    lineCount after (front ++ back) = lineCount (back ++ after) front + lineCount after back := by
  rw [lineCount, lineCount, lineCount, loneReturns_append, List.count_append]
  omega

theorem lineCount_nil (after : Bytes) : lineCount after [] = 0 := rfl

theorem lineCount_cons_of_not_isLineEnd {b : UInt8} (hb : isLineEnd b = false)
    (after bytes : Bytes) : lineCount after (b :: bytes) = lineCount after bytes := by
  obtain ⟨hfeed, hreturn⟩ := ne_of_isLineEnd_eq_false hb
  rw [lineCount, lineCount, loneReturns, List.count_cons_of_ne hfeed,
    if_neg fun h => hreturn h.1, Nat.zero_add]

theorem lineCount_feed (after bytes : Bytes) :
    lineCount after (byte '\n' :: bytes) = lineCount after bytes + 1 := by
  rw [lineCount, lineCount, loneReturns, List.count_cons_self, if_neg fun h => absurd h.1 (by decide)]
  omega

theorem lineCount_return (after bytes : Bytes) :
    lineCount after (byte '\r' :: bytes)
      = lineCount after bytes + if (bytes ++ after).head? = some (byte '\n') then 0 else 1 := by
  rw [lineCount, lineCount, loneReturns, List.count_cons_of_ne (by decide)]
  by_cases hnext : (bytes ++ after).head? = some (byte '\n')
  · rw [if_neg fun h => h.2 hnext, if_pos hnext]
    omega
  · rw [if_pos ⟨rfl, hnext⟩, if_neg hnext]
    omega

/-- What comes behind counts only if it splits the two bytes of a line end. -/
theorem lineCount_alone (after bytes : Bytes) :
    lineCount [] bytes = lineCount after bytes
      + if bytes.getLast? = some (byte '\r') ∧ after.head? = some (byte '\n') then 1 else 0 := by
  induction bytes with
  | nil => rfl
  | cons b bytes ih =>
    -- The last byte alone has what comes behind next to it.
    cases bytes with
    | nil =>
      by_cases hb : b = byte '\r' <;> by_cases hafter : after.head? = some (byte '\n') <;>
        simp [lineCount, loneReturns, hb, hafter]
    | cons b' bytes =>
      have hlone : ∀ after, loneReturns after (b :: b' :: bytes)
          = (if b = byte '\r' ∧ b' ≠ byte '\n' then 1 else 0) + loneReturns after (b' :: bytes) := by
        intro after
        simp [loneReturns]
      rw [lineCount, lineCount] at ih ⊢
      rw [hlone, hlone, List.count_cons, List.getLast?_cons_cons]
      omega

/-! ## What the cursor counts -/

/-- The count of line ends that a cursor makes of a token. -/
theorem fst_lineEnds (afterReturn : Bool) (count : Nat) (tail bytes : Bytes) :
    (Cursor.lineEnds afterReturn count tail bytes).1
        + (if afterReturn ∧ bytes.head? = some (byte '\n') then 1 else 0)
      = count + lineCount [] bytes := by
  -- A line feed that comes first after a carriage return is counted on the right alone.
  induction bytes generalizing afterReturn count tail with
  | nil => simp [Cursor.lineEnds, lineCount_nil]
  | cons b bytes ih =>
    rw [Cursor.lineEnds, List.head?_cons]
    by_cases hreturn : b = byte '\r'
    · have hne : some b ≠ some (byte '\n') := by
        rw [hreturn]
        decide
      have hrest := ih true (count + 1) []
      rw [if_pos hreturn, if_neg fun h => hne h.2, hreturn, lineCount_return, List.append_nil]
      by_cases hnext : bytes.head? = some (byte '\n') <;> simp [hnext] at hrest ⊢ <;> omega
    · rw [if_neg hreturn]
      by_cases hfeed : b = byte '\n'
      · have hrest := ih false (if afterReturn then count else count + 1) []
        rw [if_pos hfeed, hfeed, lineCount_feed]
        cases afterReturn <;> simp at hrest ⊢ <;> omega
      · have hrest := ih false count (b :: tail)
        have hb : isLineEnd b = false := by simp [isLineEnd, hfeed, hreturn]
        rw [if_neg hfeed, lineCount_cons_of_not_isLineEnd hb,
          if_neg fun h => hfeed (Option.some.inj h.2)]
        simpa using hrest

/-- How many lines too many are counted for bytes that are passed over as a whole: one if they end
between a carriage return and a line feed, and one less if their second byte is a line feed. -/
def surplus (after token : Bytes) : Int :=
  (if token.getLast? = some (byte '\r') ∧ after.head? = some (byte '\n') then 1 else 0)
    - if (token.drop 1).head? = some (byte '\n') then 1 else 0

theorem surplus_of_isSteady {token : Bytes} (h : IsSteady token) (after : Bytes) :
    surplus after token = 0 := by
  rw [surplus, if_neg fun hlast => h.last hlast.1, if_neg h.second]
  rfl

theorem line_through {b : UInt8} (hb : isLineEnd b = false) (c : Cursor) (n : Nat) (rest : Bytes) :
    ((c.through ((b :: rest).take n)).line : Int)
      = c.line + lineCount ((b :: rest).drop n) ((b :: rest).take n)
        + surplus ((b :: rest).drop n) ((b :: rest).take n) := by
  cases n with
  | zero => simp [Cursor.through, Cursor.lineEnds, lineCount_nil, surplus]
  | succ n =>
    rw [List.take_succ_cons, List.drop_succ_cons]
    generalize rest.take n = token
    generalize rest.drop n = after
    have hline : (c.through (b :: token)).line
        = c.line + (Cursor.lineEnds true 0 [b] token).1 := by
      unfold Cursor.through
      rw [List.take_succ_cons, List.take_zero, List.drop_succ_cons, List.drop_zero]
      rcases Cursor.lineEnds true 0 [b] token with ⟨_ | count, tail⟩ <;> rfl
    -- The count starts as if the first byte were a carriage return, and ends as if nothing followed.
    have hends := fst_lineEnds true 0 [b] token
    have halone := lineCount_alone after token
    have hlast : (b :: token).getLast? = some (byte '\r') ↔ token.getLast? = some (byte '\r') := by
      cases token with
      | nil => simp [(ne_of_isLineEnd_eq_false hb).2]
      | cons b' token => rw [List.getLast?_cons_cons]
    rw [hline, lineCount_cons_of_not_isLineEnd hb]
    simp only [surplus, hlast, List.drop_succ_cons, List.drop_zero, true_and] at hends ⊢
    split at halone <;> split at hends <;> simp only [*, and_self, if_true, if_false] <;> omega

theorem Cursor.line_newLine (c : Cursor) : c.newLine.line = c.line + 1 := rfl

/-- Blanks and comments are counted right. -/
theorem line_skipBlank {ended inComment : Bool} {c c' : Cursor} {bytes rest : Bytes}
    (h : c.skipBlank ended inComment bytes = some (c', rest)) :
    (∃ skipped, bytes = skipped ++ rest ∧ c'.line = c.line + lineCount rest skipped)
      ∧ ∀ b ∈ rest.head?, opensToken b := by
  fun_induction Cursor.skipBlank ended inComment c bytes with
  | case1 => cases h
  | case2 =>
    cases h
    exact ⟨⟨[], rfl, rfl⟩, by simp⟩
  | case3 inComment c later ih =>
    obtain ⟨⟨skipped, rfl, hline⟩, hrest⟩ := ih h
    refine ⟨⟨byte '\n' :: skipped, rfl, ?_⟩, hrest⟩
    rw [hline, Cursor.line_newLine, lineCount_feed]
    omega
  | case4 inComment c =>
    cases h
    exact ⟨⟨[byte '\r'], rfl, rfl⟩, by simp⟩
  | case5 => cases h
  | case6 inComment c later _ ih =>
    obtain ⟨⟨skipped, rfl, hline⟩, hrest⟩ := ih h
    refine ⟨⟨byte '\r' :: byte '\n' :: skipped, rfl, ?_⟩, hrest⟩
    rw [hline, Cursor.line_newLine, lineCount_return, List.cons_append, List.head?_cons, if_pos rfl,
      lineCount_feed]
    omega
  | case7 inComment c b later hfeed _ ih =>
    obtain ⟨⟨skipped, hskipped, hline⟩, hrest⟩ := ih h
    have hnext : (skipped ++ rest).head? ≠ some (byte '\n') := by
      rw [← hskipped]
      exact fun hnext => hfeed (Option.some.inj hnext)
    refine ⟨⟨byte '\r' :: skipped, by rw [hskipped, List.cons_append], ?_⟩, hrest⟩
    rw [hline, Cursor.line_newLine, lineCount_return, if_neg hnext]
    omega
  | case8 inComment c b later hfeed hreturn _ ih =>
    obtain ⟨⟨skipped, rfl, hline⟩, hrest⟩ := ih h
    refine ⟨⟨b :: skipped, rfl, ?_⟩, hrest⟩
    rw [hline, lineCount_cons_of_not_isLineEnd (by simp [isLineEnd, hfeed, hreturn])]
    rfl
  | case9 inComment c later _ _ _ ih =>
    obtain ⟨⟨skipped, rfl, hline⟩, hrest⟩ := ih h
    refine ⟨⟨byte '#' :: skipped, rfl, ?_⟩, hrest⟩
    rw [hline, lineCount_cons_of_not_isLineEnd (by decide)]
    rfl
  | case10 inComment c b later hfeed hreturn hblank hcomment =>
    cases h
    refine ⟨⟨[], rfl, rfl⟩, ?_⟩
    rintro b ⟨⟩
    simp only [Bool.or_eq_true, decide_eq_true_eq, not_or] at hblank
    simp [opensToken, hfeed, hreturn, hblank, hcomment]

/-! ## Where problems lie -/

/-- A place in a document. -/
structure Place where
  /-- How many bytes lie before it. -/
  offset : Nat
  /-- How many lines too many the parser counts before it. -/
  drift : Int
deriving DecidableEq

namespace Place

/-- The place that the parser gets to when it passes over the first `n` of the bytes that follow. -/
def passOver (place : Place) (n : Nat) (bytes : Bytes) : Place :=
  ⟨place.offset + n, place.drift + surplus (bytes.drop n) (bytes.take n)⟩

/-- By how much the line of the parser exceeds that of `lineOf`. -/
def excess (bytes : Bytes) (place : Place) : Int :=
  loneReturns (bytes.drop place.offset) (bytes.take place.offset) + place.drift

end Place

namespace Parser

variable (labels : Nat → String)

/-- The places of the problems that are reported of a token that starts with the byte `b` at `here`,
and what the drift is behind it. -/
def tokenPlaces (r : Recognition) (here : Place) (b : UInt8) (rest : Bytes) : List Place × Int :=
  match scan r.base true b rest with
  | .wait => ([here], here.drift + surplus [] (b :: rest))
  | .fault _ offset size =>
    ([here.passOver offset (b :: rest)], (here.passOver size (b :: rest)).drift)
  | .found t _ => ((r.accept labels t).faults.map fun _ => here, here.drift)

/-- The places of the problems of the next token in a document of `total` bytes, and what the drift is
behind it. -/
def nextPlaces (total : Nat) (drift : Int) (p : Parser) : List Place × Int :=
  match p.cursor.skipBlank true false p.unread with
  | some (_, b :: rest) => tokenPlaces labels p.recognition ⟨total - (rest.length + 1), drift⟩ b rest
  | _ => ([], drift)

/-- The places of the problems that are reported of what is left of a document of `total` bytes. -/
def places (total : Nat) (drift : Int) (p : Parser) : List Place :=
  match _h : p.next? labels true with
  | some (_, p') =>
    (p.nextPlaces labels total drift).1 ++ places total (p.nextPlaces labels total drift).2 p'
  | none => p.recognition.close.faults.map fun _ => ⟨total, drift⟩
  termination_by p.unread.length
  decreasing_by exact length_lt_of_next? _h

theorem places_of_some {p p' : Parser} {events : List Event}
    (h : p.next? labels true = some (events, p')) (total : Nat) (drift : Int) :
    p.places labels total drift
      = (p.nextPlaces labels total drift).1
        ++ p'.places labels total (p.nextPlaces labels total drift).2 := by
  rw [places]
  split
  · next hsome =>
    rw [h] at hsome
    cases hsome
    rfl
  · next hnone =>
    rw [h] at hnone
    cases hnone

theorem places_of_none {p : Parser} (h : p.next? labels true = none) (total : Nat) (drift : Int) :
    p.places labels total drift = p.recognition.close.faults.map fun _ => ⟨total, drift⟩ := by
  rw [places]
  split
  · next hsome =>
    rw [h] at hsome
    cases hsome
  · rfl

end Parser

/-- The places of the errors of the parser in a document. -/
def placesOf (labels : Nat → String) (base : Option Iri) (bytes : Bytes) : List Place :=
  ((Parser.start base).feed bytes).places labels bytes.length 0

/-- A cursor has come to what is unread of a document, and has counted `drift` lines too many. -/
def IsAt (bytes : Bytes) (drift : Int) (c : Cursor) (unread : Bytes) : Prop :=
  ∃ front, bytes = front ++ unread ∧ (c.line : Int) = lineCount unread front + drift

/-- A problem has the line that the parser makes of a place. -/
def LiesAt (bytes : Bytes) (place : Place) (p : Problem) : Prop :=
  p.line = lineOf bytes place.offset + place.excess bytes

theorem lineOf_add_excess (bytes : Bytes) (place : Place) :
    (lineOf bytes place.offset + place.excess bytes : Int)
      = lineCount (bytes.drop place.offset) (bytes.take place.offset) + place.drift + 1 := by
  rw [Place.excess, lineOf, lineCount]
  omega

namespace IsAt

variable {bytes unread rest : Bytes} {drift : Int} {c c' : Cursor} {b : UInt8}

theorem skipBlank {ended inComment : Bool} (h : IsAt bytes drift c unread)
    (hskip : c.skipBlank ended inComment unread = some (c', rest)) : IsAt bytes drift c' rest := by
  obtain ⟨front, rfl, hline⟩ := h
  obtain ⟨⟨skipped, rfl, hskipped⟩, -⟩ := line_skipBlank hskip
  refine ⟨front ++ skipped, (List.append_assoc _ _ _).symm, ?_⟩
  rw [hskipped, lineCount_append]
  omega

theorem line_eq (h : IsAt bytes drift c unread) {start : Nat}
    (hstart : start = bytes.length - unread.length) :
    (c.line + 1 : Int) = lineOf bytes start + Place.excess bytes ⟨start, drift⟩ := by
  obtain ⟨front, rfl, hline⟩ := h
  obtain rfl : start = front.length := by simp [hstart]
  have hsum := lineOf_add_excess (front ++ unread) ⟨front.length, drift⟩
  dsimp only at hsum
  rw [List.take_left, List.drop_left] at hsum
  omega

/-- The line of a place among the bytes that follow. -/
theorem line_passOver (h : IsAt bytes drift c (b :: rest)) (hb : isLineEnd b = false) {start : Nat}
    (hstart : start = bytes.length - (rest.length + 1)) (n : Nat) :
    ((c.through ((b :: rest).take n)).line + 1 : Int)
      = lineOf bytes (Place.passOver ⟨start, drift⟩ n (b :: rest)).offset
        + (Place.passOver ⟨start, drift⟩ n (b :: rest)).excess bytes := by
  obtain ⟨front, rfl, hline⟩ := h
  obtain rfl : start = front.length := by simp [hstart]
  rw [lineOf_add_excess]
  dsimp only [Place.passOver]
  rw [List.take_length_add_append, List.drop_length_add_append, lineCount_append,
    List.take_append_drop, line_through hb, hline]
  omega

/-- Behind a token of `n` bytes. One byte is passed even if there is none. -/
theorem through (h : IsAt bytes drift c (b :: rest)) (hb : isLineEnd b = false) (n : Nat) :
    IsAt bytes (drift + surplus ((b :: rest).drop n) ((b :: rest).take n))
      (c.through ((b :: rest).take n)) (rest.drop (n - 1)) := by
  obtain ⟨front, rfl, hline⟩ := h
  have hthrough := line_through hb c n rest
  cases n with
  | zero =>
    refine ⟨front ++ [b], List.append_cons front b rest, ?_⟩
    rw [hthrough, hline, Nat.zero_sub, List.drop_zero, List.drop_zero, List.take_zero,
      lineCount_append, lineCount_cons_of_not_isLineEnd hb, lineCount_nil, lineCount_nil]
    simp only [List.singleton_append]
    omega
  | succ n =>
    refine ⟨front ++ (b :: rest).take (n + 1), ?_, ?_⟩
    · rw [List.append_assoc, Nat.add_sub_cancel, List.take_succ_cons, List.cons_append,
        List.take_append_drop]
    · rw [hthrough, hline, Nat.add_sub_cancel, lineCount_append, List.drop_succ_cons,
        List.take_succ_cons, List.cons_append, List.take_append_drop]
      omega

end IsAt

/-- All that is reported at a cursor lies at one place. -/
theorem forall_liesAt_report {bytes : Bytes} {place : Place} {c : Cursor}
    (h : (c.line + 1 : Int) = lineOf bytes place.offset + place.excess bytes) (token : Bytes)
    (r : Recognition) :
    List.Forall₂ (LiesAt bytes) (r.faults.map fun _ => place)
      (problemsOf (Parser.report c token r)) := by
  rw [problemsOf_report_eq, List.forall₂_map_left_iff, List.forall₂_map_right_iff]
  exact List.forall₂_same.2 fun _ _ => h

namespace Parser

variable {labels : Nat → String} {bytes : Bytes} {drift : Int} {p p' : Parser} {events : List Event}

theorem forall_liesAt_token {b : UInt8} {rest : Bytes}
    (hat : IsAt bytes drift p.cursor (b :: rest)) (hb : opensToken b)
    (h : p.readToken labels true b rest = some (events, p')) {start : Nat}
    (hstart : start = bytes.length - (rest.length + 1)) :
    List.Forall₂ (LiesAt bytes) (tokenPlaces labels p.recognition ⟨start, drift⟩ b rest).1
        (problemsOf events)
      ∧ IsAt bytes (tokenPlaces labels p.recognition ⟨start, drift⟩ b rest).2 p'.cursor p'.unread := by
  have hline := isLineEnd_of_opensToken hb
  have hsteady := isSteady_scan p.recognition.base true hb rest
  unfold readToken at h
  unfold tokenPlaces
  cases hscan : scan p.recognition.base true b rest with
  | wait =>
    rw [hscan] at h
    cases h
    have hwhole := hat.through hline (b :: rest).length
    rw [List.take_length, List.drop_length, List.length_cons, Nat.add_sub_cancel,
      List.drop_length] at hwhole
    exact ⟨.cons (hat.line_eq hstart) .nil, hwhole⟩
  | fault cause offset size =>
    rw [hscan] at h
    cases h
    exact ⟨.cons (hat.line_passOver hline hstart offset) .nil, hat.through hline size⟩
  | found t size =>
    rw [hscan] at h hsteady
    cases h
    have hthrough := hat.through hline size
    rw [surplus_of_isSteady hsteady, Int.add_zero] at hthrough
    exact ⟨forall_liesAt_report (hat.line_eq hstart) _ _, hthrough⟩

theorem forall_liesAt_next (hat : IsAt bytes drift p.cursor p.unread)
    (h : p.next? labels true = some (events, p')) :
    List.Forall₂ (LiesAt bytes) (p.nextPlaces labels bytes.length drift).1 (problemsOf events)
      ∧ IsAt bytes (p.nextPlaces labels bytes.length drift).2 p'.cursor p'.unread := by
  obtain ⟨⟨cursor, left⟩, hskip⟩ := exists_of_skipBlank p.cursor false p.unread
  obtain ⟨-, hopens⟩ := line_skipBlank hskip
  unfold next? at h
  unfold nextPlaces
  rw [hskip] at h ⊢
  cases left with
  | nil => cases h
  | cons b rest =>
    exact forall_liesAt_token (p := { p with cursor }) (hat.skipBlank hskip) (hopens b rfl) h rfl

/-- Of a document that has ended, all is read. -/
theorem exists_of_next?_eq_none (h : p.next? labels true = none) :
    ∃ cursor, p.cursor.skipBlank true false p.unread = some (cursor, []) := by
  obtain ⟨⟨cursor, _ | ⟨b, rest⟩⟩, hskip⟩ := exists_of_skipBlank p.cursor false p.unread
  · exact ⟨cursor, hskip⟩
  · unfold next? at h
    rw [hskip] at h
    unfold readToken at h
    dsimp only at h
    split at h <;> cases h

/-- The parser's lines are those of the places of its problems, and what it counts more. -/
theorem forall_liesAt_close (hat : IsAt bytes drift p.cursor p.unread) :
    List.Forall₂ (LiesAt bytes) (p.places labels bytes.length drift) (problemsOf (p.close labels)) := by
  -- Each token leaves less unread, and a cursor whose count is off by what `places` says.
  induction hn : p.unread.length using Nat.strongRecOn generalizing p drift with
  | _ n ih =>
    cases hnext : p.next? labels true with
    | none =>
      obtain ⟨cursor, hskip⟩ := exists_of_next?_eq_none hnext
      rw [places_of_none labels hnext, close_of_none labels hnext hskip]
      exact forall_liesAt_report ((hat.skipBlank hskip).line_eq rfl) _ _
    | some next =>
      obtain ⟨events, p'⟩ := next
      have hlength := length_lt_of_next? hnext
      obtain ⟨hhere, hat'⟩ := forall_liesAt_next hat hnext
      rw [places_of_some labels hnext, close_of_some labels hnext, problemsOf_append]
      exact List.rel_append hhere (ih _ (hn ▸ hlength) hat' rfl)

end Parser

theorem forall_liesAt_parserErrors (labels : Nat → String) (base : Option Iri) (bytes : Bytes) :
    List.Forall₂ (LiesAt bytes) (placesOf labels base bytes) (parserErrors labels base bytes) :=
  Parser.forall_liesAt_close ⟨[], rfl, rfl⟩

/-! ## What else is reported -/

variable (labels : Nat → String)

/-- What a problem of the document as a whole is about: the first byte from which on the document is
no text, or the first byte of a directive whose prefix is unused. -/
def IsAbout (bytes : Bytes) (offset : Nat) (message : String) : Prop :=
  message = "Invalid UTF-8 byte sequence" ∧ ValidUpTo bytes offset
    ∨ ∃ d ∈ Directive.scan bytes, message = "Unused prefix '" ++ d.name ++ ":'" ∧ offset = d.start

theorem Directive.name_announce (d : Directive) (p : Parser) : (d.announce p).name = d.name := by
  unfold announce
  split
  · rfl
  · split <;> rfl

/-- A warning is about the directive that its line was counted for. -/
theorem isAbout_of_warnsOf {base : Option Iri} {bytes : Bytes} {spaces : List Namespace}
    (hspaces : spaces
      = (Directive.scan bytes).map fun d => d.announce (readFront labels base bytes d.stop).2)
    {space : Namespace} (hspace : space ∈ spaces) {q : Problem}
    (h : WarnsOf bytes spaces space (.problem q)) :
    ∃ offset, IsAbout bytes offset q.message ∧ q.line = lineOf bytes offset := by
  obtain ⟨d, hd, hq⟩ := h
  cases hq
  -- Directives and declarations stand in one order, so what is found is what declares the namespace.
  have hfound : spaces[spaces.idxOf space]? = some space := by
    rw [List.getElem?_eq_getElem (List.idxOf_lt_length_of_mem hspace), List.getElem_idxOf]
  have hname : space.name = d.name := by
    rw [hspaces, List.getElem?_map, ← hspaces, hd] at hfound
    rw [← Option.some.inj hfound, Directive.name_announce]
  exact ⟨d.start, .inr ⟨d, List.mem_of_getElem? hd, by rw [hname], rfl⟩, rfl⟩

theorem exists_fault_of_mem_lateErrors {bytes : Bytes} {errors : List Problem} {q : Problem}
    (h : q ∈ lateErrors bytes errors) :
    ∃ fault, fault? bytes = some fault ∧ q = undecodableAt bytes fault.offset := by
  unfold lateErrors at h
  split at h
  · next fault hfault =>
    split at h
    · cases h
    · exact ⟨fault, hfault, List.mem_singleton.1 h⟩
  · cases h

theorem exists_of_mem_right {α β : Type} {R : α → β → Prop} {as : List α} {bs : List β}
    (h : List.Forall₂ R as bs) {b : β} (hb : b ∈ bs) : ∃ a ∈ as, R a b := by
  obtain ⟨hlength, hget⟩ := List.forall₂_iff_get.1 h
  obtain ⟨⟨i, hi⟩, rfl⟩ := List.get_of_mem hb
  exact ⟨_, List.get_mem as ⟨i, hlength ▸ hi⟩, hget i _ hi⟩

/-- What is no error of the parser is about a place, on the line that line feeds make it. -/
theorem exists_isAbout_of_mem {base : Option Iri} {warnsUnused : Bool} {bytes : Bytes} {q : Problem}
    (hq : q ∈ problemsOf (readAll labels base warnsUnused bytes))
    (hother : q ∉ parserErrors labels base bytes) :
    ∃ offset, IsAbout bytes offset q.message ∧ q.line = lineOf bytes offset := by
  obtain ⟨front, warnings, hplain, hwarned, hdeclarations, hwarns⟩ :=
    exists_front labels base bytes
  have herrors := problemsOf_readAll_eq_errors labels base bytes
  rw [hplain, problemsOf_append] at herrors
  change problemsOf front ++ [] = _ at herrors
  rw [List.append_nil] at herrors
  -- Asking for warnings adds them right before the end.
  have hcases : q ∈ problemsOf front ∨ q ∈ problemsOf warnings := by
    cases warnsUnused with
    | false =>
      rw [hplain, problemsOf_append, List.mem_append] at hq
      exact .inl (hq.resolve_right nofun)
    | true =>
      rw [hwarned, problemsOf_append, problemsOf_append, List.mem_append, List.mem_append] at hq
      exact hq.resolve_right nofun
  rcases hcases with hq | hq
  · rw [herrors, List.mem_append] at hq
    obtain ⟨fault, hfault, rfl⟩ := exists_fault_of_mem_lateErrors (hq.resolve_left hother)
    exact ⟨fault.offset, .inl ⟨rfl, validUpTo_of_fault? hfault⟩, rfl⟩
  · obtain ⟨e, he, hproblem⟩ := List.mem_filterMap.1 hq
    cases e with
    | problem p =>
      cases hproblem
      obtain ⟨space, hspace, hwarn⟩ := exists_of_mem_right hwarns he
      have hdeclared := List.mem_eraseDups.1 (List.mem_filter.1 hspace).1
      exact isAbout_of_warnsOf labels hdeclarations hdeclared hwarn
    | _ => cases hproblem

/-- A limit on problems takes none in. -/
theorem problemsOf_limitProblems_prefix (max n : Nat) (events : List Event) :
    problemsOf (limitProblems max n events) <+: problemsOf events := by
  have hcuts := limitProblems_cuts events [] problemsOf_nil max n
  rw [List.append_nil] at hcuts
  split at hcuts
  · exact ⟨[], by rw [hcuts, List.append_nil]⟩
  · obtain ⟨kept, p, rest, rfl, -, hlimit⟩ := hcuts
    rw [hlimit, problemsOf_append, problemsOf_append]
    change problemsOf kept ++ [] <+: _
    rw [List.append_nil]
    exact List.prefix_append _ _

/-- The lines of all problems of a document. A warning of an unused prefix has the line that the line
feeds before its directive make, the error that a document is no text has that of the first byte that is
not. An error of the parser has the line that the line feeds before it make, and then one for each
carriage return that stands alone, and what the parser counts too many before it. So where the two kinds
are about one place, they have one line if there is no such excess, and only then. A limit changes no
line. -/
theorem yields_lines {o : Options} {base : Option Iri} (hbase : o.base? = .ok base) (bytes : Bytes) :
    ∃ events, Yields labels { o with maxProblems := none } bytes events
      ∧ parserErrors labels base bytes <+: problemsOf events
      ∧ List.Forall₂ (fun (place : Place) (p : Problem) =>
          p.line = lineOf bytes place.offset + place.excess bytes)
        (placesOf labels base bytes) (parserErrors labels base bytes)
      ∧ (∀ q ∈ problemsOf events,
        q.kind = .warning ∨ q.message = "Invalid UTF-8 byte sequence" →
          ∃ offset, IsAbout bytes offset q.message ∧ q.line = lineOf bytes offset
            ∧ ∀ place p, (place, p) ∈ (placesOf labels base bytes).zip
                (parserErrors labels base bytes) →
              place.offset = offset → (p.line = q.line ↔ place.excess bytes = 0))
      ∧ ∀ max, ∃ limited, Yields labels { o with maxProblems := some max } bytes limited
        ∧ problemsOf limited <+: problemsOf events := by
  have hlies := forall_liesAt_parserErrors labels base bytes
  refine ⟨_, yields_readAll labels hbase o.warnsUnused bytes, ?_, hlies, ?_, fun max =>
    ⟨_, yields_limitProblems labels hbase o.warnsUnused bytes max,
      problemsOf_limitProblems_prefix max max _⟩⟩
  · obtain ⟨warnings, hproblems, -⟩ :=
      problemsOf_readAll_eq_append labels base o.warnsUnused bytes
    rw [hproblems, List.append_assoc]
    exact List.prefix_append _ _
  · intro q hq hkind
    have hother : q ∉ parserErrors labels base bytes := by
      intro hmem
      rcases hkind with hkind | hmessage
      · rw [kind_of_mem_parserErrors labels hmem] at hkind
        cases hkind
      · exact message_ne_of_mem_parserErrors labels hmem hmessage
    obtain ⟨offset, habout, hline⟩ := exists_isAbout_of_mem labels hq hother
    refine ⟨offset, habout, hline, ?_⟩
    rintro place p hmem rfl
    have hplace : LiesAt bytes place p := (List.forall₂_iff_zip.1 hlies).2 hmem
    rw [hplace, hline]
    omega

/-- Lines that end in both bytes are counted alike. The parser faults a directive on the line on which
its prefix is warned of. -/
theorem yields_lines_both :
    ∃ events, Yields (fun _ => "f") ⟨none, true, none⟩
        (encode "<s:a>\r\n@prefix ex: <http://e/> .\n") events
      ∧ ∃ p ∈ parserErrors (fun _ => "f") none (encode "<s:a>\r\n@prefix ex: <http://e/> .\n"),
        ∃ q ∈ problemsOf events, p.message = "@prefix is not a valid predicate"
          ∧ q.message = "Unused prefix 'ex:'" ∧ p.line = q.line := by
  generalize hbytes : encode "<s:a>\r\n@prefix ex: <http://e/> .\n" = bytes
  have hplaces : placesOf (fun _ => "f") none bytes = [⟨7, 0⟩] := by
    subst hbytes
    decide +kernel
  have herrors : parserErrors (fun _ => "f") none bytes
      = [⟨.error, "@prefix is not a valid predicate", 2, 0⟩] := by
    subst hbytes
    decide +kernel
  have hdirectives : (Directive.scan bytes).map Directive.start = [7] := by
    subst hbytes
    decide +kernel
  have hwarning : ⟨.warning, "Unused prefix 'ex:'", 2, -1⟩
      ∈ problemsOf (readAll (fun _ => "f") none true bytes) := by
    subst hbytes
    decide +kernel
  have hexcess : Place.excess bytes ⟨7, 0⟩ = 0 := by
    subst hbytes
    decide +kernel
  have hbase : Options.base? ⟨none, true, none⟩ = .ok none := rfl
  obtain ⟨events, hyields, -, -, hothers, -⟩ := yields_lines (fun _ => "f") hbase bytes
  have hevents : events = readAll (fun _ => "f") none true bytes :=
    Except.ok.inj (hyields.1.symm.trans (yields_readAll (fun _ => "f") hbase true bytes).1)
  rw [← hevents] at hwarning
  obtain ⟨offset, habout, -, hsame⟩ := hothers _ hwarning (.inl rfl)
  obtain ⟨d, hd, -, rfl⟩ := habout.resolve_left fun h => absurd h.1 (by decide)
  have hstart : d.start = 7 := by
    have hmem := List.mem_map_of_mem (f := Directive.start) hd
    rw [hdirectives] at hmem
    exact List.mem_singleton.1 hmem
  rw [hplaces, herrors] at hsame
  refine ⟨events, hyields, _, herrors ▸ List.mem_singleton_self _, _, hwarning, rfl, rfl, ?_⟩
  exact (hsame ⟨7, 0⟩ _ List.mem_cons_self hstart.symm).2 hexcess

/-- A carriage return that stands alone parts the two counts. The parser faults the directive on one
line, and the warning of its prefix has another. -/
theorem yields_lines_alone :
    (Directive.scan (encode "<s:a>\r@prefix ex: <http://e/> .\n")).map Directive.start = [6]
      ∧ placesOf (fun _ => "f") none (encode "<s:a>\r@prefix ex: <http://e/> .\n") = [⟨6, 0⟩]
      ∧ Yields (fun _ => "f") ⟨none, true, none⟩ (encode "<s:a>\r@prefix ex: <http://e/> .\n")
        [.problem ⟨.error, "@prefix is not a valid predicate", 2, 0⟩,
          .declaration ⟨"ex", "http://e/"⟩, .problem ⟨.warning, "Unused prefix 'ex:'", 1, -1⟩,
          .finished] := by
  refine ⟨by decide +kernel, by decide +kernel, ?_⟩
  have hread : readAll (fun _ => "f") none true (encode "<s:a>\r@prefix ex: <http://e/> .\n")
      = [.problem ⟨.error, "@prefix is not a valid predicate", 2, 0⟩,
        .declaration ⟨"ex", "http://e/"⟩, .problem ⟨.warning, "Unused prefix 'ex:'", 1, -1⟩,
        .finished] := by
    decide +kernel
  rw [← hread]
  exact yields_readAll (fun _ => "f") (show Options.base? ⟨none, true, none⟩ = .ok none from rfl) true _

end TidyTrig.Trig
