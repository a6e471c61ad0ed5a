import TidyTrig.Proofs.Trig.Announcing
import TidyTrig.Proofs.Trig.Lines
import TidyTrig.Proofs.Trig.Mentions
import TidyTrig.Proofs.Trig.Passing
import TidyTrig.Proofs.Trig.Source

/-!
# Declarations are bindings

The declarations of a document are found by a scan that knows less of tokens than the parser. A word is
plain if the scan takes it for what it is to the parser. A document that is read without a problem and
has plain words only is announced as it is bound: one declaration for each prefix that the parser binds,
in their order, with the IRI that it binds (`yields_bindings`).

The proof follows the parser word by word. `IsUnderway` holds between words; a word that is no part of a
declaration is passed by the scan, and the three words of a declaration are found by it
(`IsUnderway.exists_advances`), whence the rest by induction on what is unread
(`IsUnderway.bindings_drain`).
-/

namespace TidyTrig.Trig

open Utf8 Directive

/-! ## Words -/

/-- A token in its document. -/
structure Word where
  /-- The byte in front of the token, if it is not the first. -/
  before : Option UInt8
  /-- The blanks and comments between the last token and this one. -/
  gap : Bytes
  text : Bytes
  /-- All that follows the token. -/
  after : Bytes
  token : Token
  /-- What is expected in front of the token. -/
  goals : List Goal
  /-- What is expected behind it. -/
  later : List Goal

/-- Whether a scan takes a word for what it is to the parser: it sees the gap end where it does. In
a declaration there is no comment, a blank follows the keyword, and an absolute IRI has no escapes.
A keyword stands where a scan expects one, and any other token that it does not step over as a
whole has nothing in it that is stepped over, and no directive starts in it. -/
def Word.isPlain (w : Word) : Bool :=
  !endsInComment false w.gap &&
    match w.goals.head? with
    | some .declaredName => !w.gap.isEmpty && w.gap.all isBlank
    | some (.declaredIri _) =>
      w.gap.all isBlank
        && (!hasScheme (decodeLossy (w.text.drop 1).dropLast) || byte '\\' ∉ w.text)
    | _ =>
      if w.later.head? = some .declaredName then mayPrecede w.before
      else w.token.isQuoted || isFree (mayPrecede w.before) w.after w.text

namespace Parser

variable (labels : Nat → String)

/-- The word that the parser reads next, given the byte in front of what was not read. -/
def word? (last : Option UInt8) (p : Parser) : Option Word :=
  match p.cursor.skipBlank true false p.unread with
  | some (_, b :: rest) =>
    match scan p.recognition.base true b rest with
    | .found t size =>
      let gap := p.unread.take (p.unread.length - (b :: rest).length)
      some ⟨gap.getLast?.or last, gap, (b :: rest).take size, rest.drop (size - 1), t,
        p.recognition.goals, (p.recognition.accept labels t).goals⟩
    | _ => none
  | _ => none

/-- The words that the parser reads up to the end, or up to what is no token. -/
def words (last : Option UInt8) (p : Parser) : List Word :=
  match _h : p.next? labels true with
  | some (_, p') =>
    match p.word? labels last with
    | some w => w :: words w.text.getLast? p'
    | none => []
  | none => []
  termination_by p.unread.length
  decreasing_by exact length_lt_of_next? _h

/-- The prefixes that were bound so far, the earliest first, each with its IRI. -/
def bindings (p : Parser) : List Namespace :=
  p.recognition.spaces.reverse.map fun s => ⟨s.1, s.2.text⟩

end Parser

/-- The words of a document. -/
def wordsOf (labels : Nat → String) (base : Option Iri) (bytes : Bytes) : List Word :=
  ((Parser.start base).feed bytes).words labels none

/-- The prefixes that the parser binds while it reads a document. -/
def bindingsOf (labels : Nat → String) (base : Option Iri) (bytes : Bytes) : List Namespace :=
  (((Parser.start base).feed bytes).drain labels true).2.bindings

namespace Parser

variable {labels : Nat → String} {last : Option UInt8} {p p' : Parser} {w : Word}
  {events : List Event}

/-! ## One word -/

/-- The parser reads a word without a fault. -/
structure ReadsWord (labels : Nat → String) (last : Option UInt8) (p : Parser) (w : Word)
    (p' : Parser) : Prop where
  takes : ∃ b tail, w.text = b :: tail ∧ Takes labels true p w.gap b tail w.token p'
  before : w.before = w.gap.getLast?.or last
  after : w.after = p'.unread
  goals : w.goals = p.recognition.goals
  later : w.later = p'.recognition.goals
  spacing : isSpacing false w.gap
  spells : Spells p.recognition.base p'.unread w.token w.text
  words : p.words labels last = w :: p'.words labels w.text.getLast?

namespace ReadsWord

variable (h : ReadsWord labels last p w p')
include h

theorem faults : (p.recognition.accept labels w.token).faults = [] := by
  obtain ⟨b, tail, -, htakes⟩ := h.takes
  exact htakes.faults

theorem recognition : p'.recognition = (p.recognition.accept labels w.token).cleared := by
  obtain ⟨b, tail, -, htakes⟩ := h.takes
  exact htakes.recognition

theorem unread : p.unread = w.gap ++ (w.text ++ p'.unread) := by
  obtain ⟨b, tail, htext, htakes⟩ := h.takes
  rw [htext]
  exact htakes.unread

theorem text_ne_nil : w.text ≠ [] := by
  obtain ⟨b, tail, htext, -⟩ := h.takes
  rw [htext]
  exact List.cons_ne_nil _ _

theorem length_lt : p'.unread.length < p.unread.length := by
  have := List.length_pos_iff.2 h.text_ne_nil
  rw [h.unread, List.length_append, List.length_append]
  omega

theorem drain : (p.drain labels true).2 = (p'.drain labels true).2 := by
  obtain ⟨b, tail, -, htakes⟩ := h.takes
  exact htakes.drain

theorem close (hclean : problemsOf (p.close labels) = []) : problemsOf (p'.close labels) = [] := by
  obtain ⟨b, tail, -, htakes⟩ := h.takes
  obtain ⟨events, hnext⟩ := htakes.next?
  exact (problemsOf_of_next? hnext hclean).2

/-- Where no declaration is begun, a word binds nothing. -/
theorem spaces (hgoals : IsOrdinary p.recognition.goals) :
    p'.recognition.spaces = p.recognition.spaces := by
  rw [h.recognition]
  exact (Recognition.goes_accept hgoals).spaces

theorem isPlain (hplain : ∀ w ∈ p.words labels last, w.isPlain) :
    w.isPlain ∧ ∀ w' ∈ p'.words labels w.text.getLast?, w'.isPlain := by
  rw [h.words] at hplain
  exact List.forall_mem_cons.1 hplain

end ReadsWord

theorem words_of_next? (hnext : p.next? labels true = some (events, p'))
    (hword : p.word? labels last = some w) :
    p.words labels last = w :: p'.words labels w.text.getLast? := by
  rw [words]
  split
  · next hnext' =>
    cases hnext.symm.trans hnext'
    rw [hword]
  · next hnone => cases hnext.symm.trans hnone

/-- What is read without a fault is a word. A token without bytes, which the parser makes of bytes at
the end that are no text, is never accepted. -/
theorem exists_readsWord (hnext : p.next? labels true = some (events, p'))
    (hclean : problemsOf events = [])
    (hempty : (p.recognition.accept labels (.keyword "")).faults ≠ []) :
    ∃ w, ReadsWord labels last p w p' := by
  have hnext' := hnext
  unfold next? at hnext'
  split at hnext'
  · next cursor b rest hskip =>
    unfold readToken at hnext'
    split at hnext'
    · split at hnext'
      · cases hnext'
        cases hclean
      · cases hnext'
    · cases hnext'
      cases hclean
    · next t size hscan =>
      cases hnext'
      -- The token is not empty, so it is its first byte and those that follow it.
      have hscan : scan p.recognition.base true b rest = .found t size := hscan
      have hfaults : (p.recognition.accept labels t).faults = [] := faults_eq_nil_of_report hclean
      have hspells := isSpelled_scan p.recognition.base b rest
      have hfits := fits_scan p.recognition.base true b rest
      rw [hscan] at hspells hfits
      obtain ⟨gap, hgap, hspacing⟩ := exists_spacing_of_skipBlank hskip
      have hsize : size ≠ 0 := by
        rintro rfl
        refine hspells.ne_nil ?_ rfl
        rintro rfl
        exact hempty hfaults
      obtain ⟨n, rfl⟩ := Nat.exists_eq_succ_of_ne_zero hsize
      have hlength : (b :: rest.take n).length = n + 1 := by
        rw [List.length_cons, List.length_take_of_le (Nat.le_of_succ_le_succ hfits)]
      have htake : p.unread.take (p.unread.length - (b :: rest).length) = gap := by
        rw [hgap, List.length_append, Nat.add_sub_cancel, List.take_left]
      have hword : p.word? labels last = some ⟨gap.getLast?.or last, gap, b :: rest.take n,
          rest.drop n, t, p.recognition.goals, (p.recognition.accept labels t).goals⟩ := by
        unfold word?
        rw [hskip]
        dsimp only
        rw [hscan]
        dsimp only
        rw [htake]
        rfl
      refine ⟨⟨gap.getLast?.or last, gap, b :: rest.take n, rest.drop n, t, p.recognition.goals,
        (p.recognition.accept labels t).goals⟩, ?_, rfl, rfl, rfl, rfl, hspacing false id, hspells,
        words_of_next? hnext hword⟩
      refine ⟨b, rest.take n, rfl, ?_, ⟨cursor, ?_, rfl⟩, ?_, rfl, hfaults⟩
      · show p.unread = gap ++ b :: (rest.take n ++ rest.drop n)
        rw [List.take_append_drop, hgap]
      · show _ = some (cursor, b :: (rest.take n ++ rest.drop n))
        rw [List.take_append_drop, hskip]
      · show scan _ true b (rest.take n ++ rest.drop n) = _
        rw [List.take_append_drop, hlength, hscan]
  · cases hnext'

/-! ## Behind a directive -/

/-- Among blanks and dots the parser finds dots only. -/
theorem of_next?_of_dots {ended : Bool} (hdots : p.unread.all fun b => isBlank b || b = byte '.')
    (hnext : p.next? labels ended = some (events, p')) :
    ∃ gap, p.unread = gap ++ byte '.' :: p'.unread
      ∧ p'.recognition = (p.recognition.accept labels (.mark .dot)).cleared := by
  unfold next? at hnext
  split at hnext
  · next cursor b rest hskip =>
    obtain ⟨⟨gap, hgap, -⟩, hopens⟩ := line_skipBlank hskip
    rw [hgap, List.all_append, List.all_cons, Bool.and_eq_true, Bool.and_eq_true] at hdots
    have hb : b = byte '.' := by
      have hopens := hopens b rfl
      have hdot := hdots.2.1
      simp only [opensToken, Bool.not_eq_true', Bool.or_eq_false_iff, decide_eq_false_iff_not]
        at hopens
      simpa [isBlank, hopens] using hdot
    subst hb
    unfold readToken at hnext
    dsimp only at hnext
    rw [scan_dot] at hnext
    unfold scanDot at hnext
    cases rest with
    | nil =>
      cases ended with
      | true =>
        cases hnext
        exact ⟨gap, hgap, rfl⟩
      | false => cases hnext
    | cons c rest =>
      have hc : isDigitByte c = false := by
        have hblank := List.all_eq_true.1 hdots.2.2 c List.mem_cons_self
        simp only [isBlank, Bool.or_eq_true, decide_eq_true_eq] at hblank
        rcases hblank with (((rfl | rfl) | rfl) | rfl) | rfl <;> decide
      dsimp only at hnext
      rw [hc, if_neg Bool.false_ne_true] at hnext
      cases hnext
      exact ⟨gap, hgap, rfl⟩
  · cases hnext

/-- What a directive takes of what follows its IRI declares nothing. -/
theorem spaces_drain_of_isEnding {ended : Bool} (h : IsEnding p.unread)
    (hgoals : IsOrdinary p.recognition.goals) :
    (p.drain labels ended).2.recognition.spaces = p.recognition.spaces := by
  cases hnext : p.next? labels ended with
  | none => rw [drain_of_none labels hnext]
  | some next =>
    obtain ⟨events, p'⟩ := next
    have hall := h.all
    obtain ⟨gap, hunread, hrecognition⟩ := of_next?_of_dots hall hnext
    have hnone : p'.next? labels ended = none := by
      rw [Option.eq_none_iff_forall_ne_some]
      rintro ⟨events', p''⟩ hnext'
      rw [hunread, List.all_append, List.all_cons, Bool.and_eq_true, Bool.and_eq_true] at hall
      obtain ⟨gap', hunread', -⟩ := of_next?_of_dots hall.2.2 hnext'
      apply h.not_mem hunread
      rw [hunread']
      simp
    rw [drain_of_some labels hnext, drain_of_none labels hnone, hrecognition]
    exact (Recognition.goes_accept hgoals).spaces

/-! ## Words that a scan passes -/

namespace ReadsWord

variable (h : ReadsWord labels last p w p') (hplain : w.isPlain)
include h hplain

/-- A scan comes to a plain word. -/
theorem finds_gap :
    finds (mayPrecede last) p.unread = finds (mayPrecede w.before) (w.text ++ p'.unread) := by
  rw [Word.isPlain, Bool.and_eq_true, Bool.not_eq_true'] at hplain
  rw [h.unread, finds_spacing h.spacing (.inl hplain.1), mayFollow_mayPrecede, h.before]

/-- What is asked of a word where no declaration is begun. -/
theorem isPlain_of_isOrdinary (hgoals : IsOrdinary p.recognition.goals) :
    if p'.recognition.goals.head? = some .declaredName then mayPrecede w.before
    else w.token.isQuoted || isFree (mayPrecede w.before) p'.unread w.text := by
  rw [Word.isPlain, Bool.and_eq_true] at hplain
  have hpart := hplain.2
  rw [← h.goals] at hgoals
  rw [← h.later, ← h.after]
  split at hpart
  · next hhead => cases hgoals.head? _ hhead
  · next hhead => cases hgoals.head? _ hhead
  · simpa using hpart

/-- A scan passes a plain word that is no part of a declaration. -/
theorem finds_word (hgoals : IsOrdinary p.recognition.goals)
    (hlater : IsOrdinary p'.recognition.goals) :
    finds (mayPrecede last) p.unread = finds (mayPrecede w.text.getLast?) p'.unread := by
  have hhead : p'.recognition.goals.head? ≠ some .declaredName := by
    intro hhead
    cases hlater.head? _ hhead
  have hpart := h.isPlain_of_isOrdinary hplain hgoals
  rw [if_neg hhead] at hpart
  rw [h.finds_gap hplain, finds_of_spells h.spells h.text_ne_nil hpart]

/-- A keyword stands where a scan expects a directive. -/
theorem mayPrecede_of_declaredName {below : List Goal} (hgoals : IsOrdinary p.recognition.goals)
    (hlater : p'.recognition.goals = .declaredName :: below) : mayPrecede w.before := by
  have hpart := h.isPlain_of_isOrdinary hplain hgoals
  rwa [hlater, List.head?_cons, if_pos rfl] at hpart

/-- Blanks follow the keyword. -/
theorem gap_of_declaredName {below : List Goal}
    (hgoals : p.recognition.goals = .declaredName :: below) :
    w.gap ≠ [] ∧ w.gap.all isBlank := by
  rw [Word.isPlain, Bool.and_eq_true, h.goals, hgoals] at hplain
  simpa using hplain.2

/-- Blanks precede the IRI, and if it is absolute, it is written as it is. -/
theorem gap_of_declaredIri {space : String} {below : List Goal}
    (hgoals : p.recognition.goals = .declaredIri space :: below) :
    w.gap.all isBlank
      ∧ (hasScheme (decodeLossy (w.text.drop 1).dropLast) → byte '\\' ∉ w.text) := by
  rw [Word.isPlain, Bool.and_eq_true, h.goals, hgoals, List.head?_cons] at hplain
  obtain ⟨-, hpart⟩ := hplain
  dsimp only at hpart
  rw [Bool.and_eq_true, Bool.or_eq_true, Bool.not_eq_true', decide_eq_true_eq] at hpart
  refine ⟨hpart.1, fun hscheme => hpart.2.resolve_left fun hfalse => ?_⟩
  rw [hscheme] at hfalse
  cases hfalse

end ReadsWord

/-! ## On the way through a document -/

variable {base : Option Iri} {bytes : Bytes}

/-- The parser is on the way through a document of which it finds nothing wrong and whose words are
plain. Given no more than what stands before `after`, it would come to the same place on the way to
an angle bracket before it. -/
structure IsUnderway (labels : Nat → String) (base : Option Iri) (bytes : Bytes)
    (last : Option UInt8) (p : Parser) : Prop where
  clean : problemsOf (p.close labels) = []
  plain : ∀ w ∈ p.words labels last, w.isPlain
  cut : ∀ x after, p.unread = x ++ after → HasAngle x →
    parserBefore labels base bytes after = ({ p with unread := x }.drain labels false).2

theorem isUnderway_start (hclean : problemsOf (((start base).feed bytes).close labels) = [])
    (hplain : ∀ w ∈ wordsOf labels base bytes, w.isPlain) :
    IsUnderway labels base bytes none ((start base).feed bytes) := by
  refine ⟨hclean, hplain, fun x after hbytes _ => ?_⟩
  have hbytes : bytes = x ++ after := hbytes
  have htake : bytes.take (bytes.length - after.length) = x := by
    rw [hbytes, List.length_append, Nat.add_sub_cancel, List.take_left]
  rw [parserBefore, htake]
  rfl

/-- Each word keeps the parser on the way. -/
theorem IsUnderway.step (h : IsUnderway labels base bytes last p)
    (hword : ReadsWord labels last p w p') :
    w.isPlain ∧ IsUnderway labels base bytes w.text.getLast? p' := by
  obtain ⟨hplain, hlater⟩ := hword.isPlain h.plain
  refine ⟨hplain, hword.close h.clean, hlater, fun x after hunread hangle => ?_⟩
  obtain ⟨b, tail, -, htakes⟩ := hword.takes
  have hsplit : p.unread = (w.gap ++ b :: (tail ++ x)) ++ after := by
    rw [htakes.unread, hunread]
    simp
  have hbehind : HasAngle (w.gap ++ b :: (tail ++ x)) := by
    rw [← List.cons_append, ← List.append_assoc]
    exact hasAngle_append hangle _
  -- With a bracket behind it, the word is taken of the cut document too.
  rw [h.cut _ _ hsplit hbehind]
  exact (htakes.of_append hunread (.inr hangle)).drain

/-- Within a declaration a document goes on. -/
theorem IsUnderway.exists_readsWord (h : IsUnderway labels base bytes last p) {goal : Goal}
    {below : List Goal} (hgoals : p.recognition.goals = goal :: below) (hgoal : goal.isDeclaring) :
    ∃ w p', ReadsWord labels last p w p' := by
  cases hnext : p.next? labels true with
  | none =>
    exact absurd (faults_close_of_none hnext h.clean)
      (Recognition.faults_close_of_isDeclaring hgoals hgoal)
  | some next =>
    obtain ⟨events, p'⟩ := next
    refine (Parser.exists_readsWord hnext (problemsOf_of_next? hnext h.clean).1 ?_).imp
      fun w hword => ⟨p', hword⟩
    intro hfaults
    cases goal with
    | declaredName =>
      obtain ⟨space, isDoubtful, ht, -⟩ := Recognition.accept_declaredName hgoals hfaults
      cases ht
    | declaredIri =>
      obtain ⟨i, ht, -⟩ := Recognition.accept_declaredIri hgoals hfaults
      cases ht
    | _ => cases hgoal

/-- Where no declaration is begun, the parser gets on: all that a scan finds on the way is announced
as what the parser binds. -/
structure Advances (labels : Nat → String) (base : Option Iri) (bytes : Bytes)
    (last : Option UInt8) (p : Parser) (found : List (Namespace × Bytes)) (last' : Option UInt8)
    (p' : Parser) : Prop where
  length_lt : p'.unread.length < p.unread.length
  drain : (p.drain labels true).2 = (p'.drain labels true).2
  underway : IsUnderway labels base bytes last' p'
  goals : IsOrdinary p'.recognition.goals
  finds : finds (mayPrecede last) p.unread = found ++ finds (mayPrecede last') p'.unread
  bindings : p'.bindings
    = p.bindings ++ found.map fun f => announced f.1 (parserBefore labels base bytes f.2)

/-- What the parser binds when it has read an IRI is announced, when it was given no more than what
the directive takes. -/
theorem IsUnderway.announced_eq (h : IsUnderway labels base bytes last p)
    (hword : ReadsWord labels last p w p') {space : String} {below : List Goal}
    (hgoals : p.recognition.goals = .declaredIri space :: below) (hbelow : IsOrdinary below) :
    ∃ i inside, w.text = byte '<' :: (inside ++ [byte '>']) ∧ inside.all isIriByte
      ∧ p'.recognition = ((p.recognition.declare space i).expect below).cleared
      ∧ announced ⟨space, decodeLossy inside⟩ (parserBefore labels base bytes
          ((afterDot p'.unread).dropWhile isBlank)) = ⟨space, i.text⟩ := by
  have hplain := (h.step hword).1
  obtain ⟨i, ht, haccept⟩ := Recognition.accept_declaredIri hgoals hword.faults
  have hspells := hword.spells
  rw [ht] at hspells
  obtain ⟨inside, htext, hinside, hsame⟩ := text_of_spells_iri hspells
  have hrecognition : p'.recognition = ((p.recognition.declare space i).expect below).cleared := by
    rw [hword.recognition, haccept]
  refine ⟨i, inside, htext, hinside, hrecognition, ?_⟩
  by_cases hscheme : hasScheme (decodeLossy inside)
  · -- The scan reads the IRI itself.
    have hescape : byte '\\' ∉ inside := by
      have hpart := (hword.gap_of_declaredIri hplain hgoals).2
      rw [htext, List.drop_one, List.tail_cons, List.dropLast_concat] at hpart
      exact fun hmem => hpart hscheme (by simp [hmem])
    rw [hsame hscheme hescape]
    exact @announced_of_hasScheme ⟨space, decodeLossy inside⟩ hscheme _
  · -- The parser is asked for the IRI, and has read it with the bytes that the directive takes.
    obtain ⟨dots, hending, hdots⟩ := exists_ending_of_afterDot p'.unread
    generalize (afterDot p'.unread).dropWhile isBlank = after at hdots ⊢
    obtain ⟨b, tail, hcons, htakes⟩ := hword.takes
    have hb : b = byte '<' := (List.cons.inj (hcons.symm.trans htext)).1
    have hsplit : p.unread = (w.gap ++ b :: (tail ++ dots)) ++ after := by
      rw [htakes.unread, hdots]
      simp
    have hangle : HasAngle (w.gap ++ b :: (tail ++ dots)) := by
      rw [← List.cons_append, ← hcons, htext]
      exact hasAngle_append (hasAngle_iri inside dots) w.gap
    have hspaces : (parserBefore labels base bytes after).recognition.spaces
        = (space, i) :: p.recognition.spaces := by
      rw [h.cut _ _ hsplit hangle, (htakes.of_append hdots (.inl hb)).drain,
        spaces_drain_of_isEnding hending (hrecognition ▸ hbelow), hrecognition]
      rfl
    rw [announced, Directive.announce, if_neg hscheme, space?, Recognition.space?, hspaces,
      List.lookup_cons_self]

/-- A declaration is found, and announced as it is bound. -/
theorem IsUnderway.declaration (h : IsUnderway labels base bytes last p)
    (hgoals : IsOrdinary p.recognition.goals) (hword : ReadsWord labels last p w p')
    (hdeclares : w.token.declares) {below : List Goal}
    (hgoals' : p'.recognition.goals = .declaredName :: below) (hbelow : IsOrdinary below) :
    ∃ f last' p'', Advances labels base bytes last p [f] last' p'' := by
  obtain ⟨hplain, h'⟩ := h.step hword
  -- The keyword is followed by the name.
  obtain ⟨w₂, p₂, hword₂⟩ := h'.exists_readsWord hgoals' rfl
  obtain ⟨hplain₂, h₂⟩ := h'.step hword₂
  obtain ⟨space, isDoubtful, ht₂, haccept₂⟩ :=
    Recognition.accept_declaredName hgoals' hword₂.faults
  have hrecognition₂ : p₂.recognition
      = (p'.recognition.expect (.declaredIri space :: below)).cleared := by
    rw [hword₂.recognition, haccept₂]
  have hgoals₂ : p₂.recognition.goals = .declaredIri space :: below := by
    rw [hrecognition₂]
    rfl
  -- The name is followed by the IRI.
  obtain ⟨w₃, p₃, hword₃⟩ := h₂.exists_readsWord hgoals₂ rfl
  obtain ⟨hplain₃, h₃⟩ := h₂.step hword₃
  obtain ⟨i, inside, htext₃, hinside, hrecognition₃, hannounced⟩ :=
    h₂.announced_eq hword₃ hgoals₂ hbelow
  -- The IRI behind it keeps the name from going on, and the three words have the form of a directive.
  have hangle : HasAngle p₂.unread := by
    rw [hword₃.unread, htext₃]
    exact hasAngle_append (hasAngle_iri inside p₃.unread) w₃.gap
  obtain ⟨name, htext₂, hname, rfl⟩ := text_of_spells_name (ht₂ ▸ hword₂.spells) hangle
  obtain ⟨hne, hgap₂⟩ := hword₂.gap_of_declaredName hplain₂ hgoals'
  obtain ⟨hgap₃, -⟩ := hword₃.gap_of_declaredIri hplain₃ hgoals₂
  have hform : IsForm w.text w₂.gap name w₃.gap inside :=
    ⟨isKeyword_of_spells hword.spells hdeclares, hne, hgap₂, hname, hgap₃, hinside⟩
  have hbytes : w.text ++ p'.unread = formBytes w.text w₂.gap name w₃.gap inside p₃.unread := by
    rw [hword₂.unread, htext₂, hword₃.unread, htext₃]
    simp [formBytes]
  refine ⟨(⟨decodeLossy name, decodeLossy inside⟩, (afterDot p₃.unread).dropWhile isBlank),
    w₃.text.getLast?, p₃, ?_, ?_, h₃, ?_, ?_, ?_⟩
  · exact (hword₃.length_lt.trans hword₂.length_lt).trans hword.length_lt
  · rw [hword.drain, hword₂.drain, hword₃.drain]
  · rw [hrecognition₃]
    exact hbelow
  · rw [hword.finds_gap hplain, hbytes, hword.mayPrecede_of_declaredName hplain hgoals hgoals',
      finds_formBytes hform, htext₃, ← List.cons_append, List.getLast?_concat]
    rfl
  · rw [bindings, hrecognition₃, List.map_singleton, hannounced]
    show List.map _ ((_, i) :: p₂.recognition.spaces).reverse = _
    rw [hrecognition₂]
    show List.map _ ((_, i) :: p'.recognition.spaces).reverse = _
    rw [hword.spaces hgoals, List.reverse_cons, List.map_append]
    rfl

/-- Where no declaration is begun, a word is passed, or begins one. -/
theorem IsUnderway.exists_advances (h : IsUnderway labels base bytes last p)
    (hgoals : IsOrdinary p.recognition.goals) (hnext : p.next? labels true = some (events, p')) :
    ∃ found last' p'', Advances labels base bytes last p found last' p'' := by
  have hempty : (p.recognition.accept labels (.keyword "")).faults ≠ [] := by
    intro hfaults
    rcases (Recognition.goes_accept hgoals).cases hfaults with ⟨hused, -⟩ | ⟨hdeclares, -⟩
    · exact absurd hused (by decide +kernel)
    · exact absurd hdeclares (by decide +kernel)
  obtain ⟨w, hword⟩ : ∃ w, ReadsWord labels last p w p' :=
    Parser.exists_readsWord hnext (problemsOf_of_next? hnext h.clean).1 hempty
  have hgoes : Recognition.Goes w.token p.recognition (p.recognition.accept labels w.token) :=
    Recognition.goes_accept hgoals
  have hafter : p'.recognition.goals = (p.recognition.accept labels w.token).goals := by
    rw [hword.recognition]
    rfl
  rcases hgoes.cases hword.faults with ⟨-, hordinary⟩ | ⟨hdeclares, below, hbegun, hbelow⟩
  · rw [← hafter] at hordinary
    obtain ⟨hplain, h'⟩ := h.step hword
    refine ⟨[], w.text.getLast?, p', hword.length_lt, hword.drain, h', hordinary,
      hword.finds_word hplain hgoals hordinary, ?_⟩
    rw [List.map_nil, List.append_nil, bindings, hword.spaces hgoals, bindings]
  · obtain ⟨f, hadvances⟩ := h.declaration hgoals hword hdeclares (hafter.trans hbegun) hbelow
    exact ⟨[f], hadvances⟩

/-- What a scan finds from some place on is announced as what the parser binds from there on. -/
theorem IsUnderway.bindings_drain (h : IsUnderway labels base bytes last p)
    (hgoals : IsOrdinary p.recognition.goals) :
    (p.drain labels true).2.bindings = p.bindings
      ++ (finds (mayPrecede last) p.unread).map fun f =>
        announced f.1 (parserBefore labels base bytes f.2) := by
  -- The parser gets on by one word or by the three of a declaration, so the induction is on what is
  -- unread.
  induction hn : p.unread.length using Nat.strongRecOn generalizing p last with
  | _ n ih =>
    cases hnext : p.next? labels true with
    | none =>
      -- Blanks and comments are left.
      obtain ⟨cursor, hskip⟩ := exists_of_next?_eq_none hnext
      obtain ⟨gap, hgap, hspacing⟩ := exists_spacing_of_skipBlank hskip
      rw [drain_of_none labels hnext, hgap, finds_spacing (hspacing false id) (.inr rfl), finds_nil,
        List.map_nil, List.append_nil]
    | some next =>
      obtain ⟨events, p'⟩ := next
      obtain ⟨found, last', p'', hadvances⟩ := h.exists_advances hgoals hnext
      rw [hadvances.drain, ih _ (hn ▸ hadvances.length_lt) hadvances.underway hadvances.goals rfl,
        hadvances.bindings, hadvances.finds, List.map_append, List.append_assoc]

end Parser

/-! ## All together -/

variable (labels : Nat → String)

/-- What a limit lets come to the end is all that there is. -/
theorem limitProblems_of_getLast? {events : List Event} {max : Nat}
    (h : (limitProblems max max events).getLast? = some .finished) :
    limitProblems max max events = events := by
  have hcuts := limitProblems_cuts events [] problemsOf_nil max max
  rw [List.append_nil] at hcuts
  split at hcuts
  · exact hcuts
  · obtain ⟨kept, p, rest, -, -, hlimit⟩ := hcuts
    rw [hlimit, List.getLast?_concat] at h
    cases h

theorem declarationsOf_readAll_of_isPlain {base : Option Iri} {bytes : Bytes}
    (hplain : ∀ w ∈ wordsOf labels base bytes, w.isPlain)
    (hproblems : problemsOf (readAll labels base false bytes) = []) :
    declarationsOf (readAll labels base false bytes) = bindingsOf labels base bytes := by
  rw [problemsOf_readAll_eq_errors, List.append_eq_nil_iff] at hproblems
  have hrun := (Parser.isUnderway_start hproblems.1 hplain).bindings_drain isOrdinary_document
  rw [declarationsOf_readAll, bindingsOf, hrun]
  rfl

/-- A document whose words are plain, if it is read to its end without a problem, declares the prefixes
that the parser binds, and nothing else: one declaration for each, in their order, with the IRI that the
parser binds to it. -/
theorem yields_bindings {o : Options} {base : Option Iri} (hbase : o.base? = .ok base)
    {bytes : Bytes} (hplain : ∀ w ∈ wordsOf labels base bytes, w.isPlain) :
    ∃ events, Yields labels { o with warnsUnused := false } bytes events
      ∧ (problemsOf events = [] → events.getLast? = some .finished →
        declarationsOf events = bindingsOf labels base bytes) := by
  have hall := declarationsOf_readAll_of_isPlain labels hplain
  obtain ⟨baseIri, warnsUnused, _ | max⟩ := o
  · exact ⟨_, yields_readAll labels hbase false bytes, fun hproblems _ => hall hproblems⟩
  · refine ⟨_, yields_limitProblems labels hbase false bytes max, fun hproblems hlast => ?_⟩
    rw [limitProblems_of_getLast? hlast] at hproblems ⊢
    exact hall hproblems

/-- Directives in a comment and in a string, and a name that is bound to a relative IRI first and then
anew, right in front of its next use. -/
def reboundDocument : Bytes :=
  encode ("# @prefix c: <http://c/> .\nPREFIX ex:<ns#>\n@prefix q: <http://q/> .\n"
    ++ "<s> ex:a.prefix '@prefix s: <http://s/> .', _:n.\n{ ex:x a 1.5 } prefix ex: "
    ++ "<http://e/>ex:y q:prefix true .")

theorem yields_bindings_rebound :
    ∃ base, Options.base? ⟨some "http://b/", true, some 0⟩ = .ok base
      ∧ wordsOf (fun _ => "f") base reboundDocument ≠ []
      ∧ (∀ w ∈ wordsOf (fun _ => "f") base reboundDocument, w.isPlain)
      ∧ ∃ events, Yields (fun _ => "f") ⟨some "http://b/", false, some 0⟩ reboundDocument events
        ∧ problemsOf events = [] ∧ events.getLast? = some .finished
        ∧ declarationsOf events
          = [⟨"ex", "http://b/ns#"⟩, ⟨"q", "http://q/"⟩, ⟨"ex", "http://e/"⟩] := by
  have hsome : (Options.base? ⟨some "http://b/", true, some 0⟩).toOption.isSome := by
    decide +kernel
  obtain ⟨base, hbase⟩ := Option.isSome_iff_exists.1 hsome
  have hwords : (Options.base? ⟨some "http://b/", true, some 0⟩).toOption.map (fun base =>
      ((wordsOf (fun _ => "f") base reboundDocument).isEmpty,
        (wordsOf (fun _ => "f") base reboundDocument).all Word.isPlain,
        bindingsOf (fun _ => "f") base reboundDocument))
      = some (false, true, [⟨"ex", "http://b/ns#"⟩, ⟨"q", "http://q/"⟩, ⟨"ex", "http://e/"⟩]) := by
    decide +kernel
  rw [hbase] at hwords
  simp only [Option.map_some, Option.some.injEq, Prod.mk.injEq, List.isEmpty_eq_false_iff,
    List.all_eq_true] at hwords
  obtain ⟨hne, hplain, hbindings⟩ := hwords
  have hbase := eq_ok_of_toOption hbase
  obtain ⟨events, hyields, hdeclarations⟩ := yields_bindings (fun _ => "f") hbase hplain
  have hclean : (read (fun _ => "f") ⟨some "http://b/", false, some 0⟩
      reboundDocument).toOption.map (fun events => (problemsOf events, events.getLast?))
      = some ([], some .finished) := by
    decide +kernel
  rw [hyields.1] at hclean
  obtain ⟨hproblems, hlast⟩ := Prod.mk.inj (Option.some.inj hclean)
  exact ⟨base, hbase, hne, hplain, events, hyields, hproblems, hlast,
    (hdeclarations hproblems hlast).trans hbindings⟩

/-- What a scan finds in a string is announced, and the parser does not bind it. The name before the
string escapes a quote. -/
theorem yields_bindings_escape :
    ∃ events, Yields (fun _ => "f") ⟨none, false, none⟩
        (encode "@prefix ex: <http://e/> . ex:a\\' ex:p \"' @prefix no: <http://no/> \" .") events
      ∧ problemsOf events = [] ∧ events.getLast? = some .finished
      ∧ declarationsOf events = [⟨"ex", "http://e/"⟩, ⟨"no", "http://no/"⟩]
      ∧ bindingsOf (fun _ => "f") none
          (encode "@prefix ex: <http://e/> . ex:a\\' ex:p \"' @prefix no: <http://no/> \" .")
        = [⟨"ex", "http://e/"⟩] := by
  have hbase : (⟨none, false, none⟩ : Options).base? = .ok none := rfl
  exact ⟨_, yields_readAll (fun _ => "f") hbase false _, by decide +kernel⟩

end TidyTrig.Trig
