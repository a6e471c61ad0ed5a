import Mathlib.Computability.Language
import TidyTrig.Proofs.Trig.Directive

/-!
# The pattern of a directive

`pattern` is the language of directives with what they take of the text behind them, a regular one. A
scan finds matches of it at places where a token may start (`exists_of_mem_scanFrom`), and each of them
is the longest that starts there (`isMatch_of_mem_scan`).
-/

namespace TidyTrig.Trig.Directive

open Utf8 (byte encode)
open scoped Computability

/-! ## The language of directives -/

/-- The texts of a single byte of some kind. -/
def one (p : UInt8 → Bool) : Language UInt8 := {text | ∃ b, p b = true ∧ text = [b]}

/-- A word, whose letters may be capitals. -/
def anyCase (word : Bytes) : Language UInt8 := {text : Bytes | text.map lowerByte = word}

/-- The keyword in lower case after an `@`, or in any case without. -/
def keyword : Language UInt8 := {byte '@' :: encode "prefix"} + anyCase (encode "prefix")

def blanks : Language UInt8 := (one isBlank)∗

/-- What a directive takes of what is behind its IRI: a dot, which need not be there, and blanks. -/
def ending : Language UInt8 := (1 + blanks * one (· = byte '.')) * blanks

/-- A keyword, blanks of which there must be some, a name with a colon, blanks, and an IRI between
brackets. -/
def pattern : Language UInt8 :=
  keyword * (one isBlank * blanks) * ((one isNameByte)∗ * one (· = byte ':')) * blanks
    * (one (· = byte '<') * (one isIriByte)∗ * one (· = byte '>')) * ending

theorem mem_one_byte {b : UInt8} {text : Bytes} : text ∈ one (· = b) ↔ text = [b] := by
  constructor
  · rintro ⟨c, hc, rfl⟩
    rw [of_decide_eq_true hc]
  · rintro rfl
    exact ⟨b, decide_eq_true rfl, rfl⟩

/-- Texts of bytes of some kind. -/
theorem mem_kstar_one {p : UInt8 → Bool} {text : Bytes} : text ∈ (one p)∗ ↔ text.all p := by
  rw [Language.mem_kstar, List.all_eq_true]
  constructor
  · rintro ⟨parts, rfl, hparts⟩ b hb
    obtain ⟨part, hpart, hb⟩ := List.mem_flatten.1 hb
    obtain ⟨c, hc, rfl⟩ := hparts part hpart
    rwa [List.mem_singleton.1 hb]
  · intro hall
    refine ⟨text.map fun b => [b], (List.flatMap_singleton' text).symm, ?_⟩
    intro part hpart
    obtain ⟨b, hb, rfl⟩ := List.mem_map.1 hpart
    exact ⟨b, hall b hb, rfl⟩

/-- Some of a kind, and at least one. -/
theorem mem_one_mul_kstar {p : UInt8 → Bool} {text : Bytes} :
    text ∈ one p * (one p)∗ ↔ text ≠ [] ∧ text.all p := by
  rw [Language.mem_mul]
  constructor
  · rintro ⟨_, ⟨b, hb, rfl⟩, rest, hrest, rfl⟩
    rw [mem_kstar_one] at hrest
    exact ⟨List.cons_ne_nil _ _, by simp [hb, hrest]⟩
  · rintro ⟨hne, hall⟩
    obtain ⟨b, rest, rfl⟩ := List.exists_cons_of_ne_nil hne
    rw [List.all_cons, Bool.and_eq_true] at hall
    exact ⟨[b], ⟨b, hall.1, rfl⟩, rest, mem_kstar_one.2 hall.2, rfl⟩

theorem mem_keyword_iff {word : Bytes} : word ∈ keyword ↔ isKeyword word := by
  rw [keyword, Language.mem_add, isKeyword, Bool.or_eq_true, decide_eq_true_eq, decide_eq_true_eq]
  rfl

theorem mem_ending_iff {dots : Bytes} : dots ∈ ending ↔ IsEnding dots := by
  constructor
  · rintro ⟨first, hfirst, gap', hgap', rfl⟩
    have hblank := mem_kstar_one.1 hgap'
    rcases hfirst with hnil | ⟨gap, hgap, dot, hdot, rfl⟩
    · left
      rw [(Language.mem_one first).1 hnil]
      exact hblank
    · right
      refine ⟨gap, gap', mem_kstar_one.1 hgap, hblank, ?_⟩
      rw [mem_one_byte.1 hdot]
      simp
  · rintro (hblank | ⟨gap, gap', hgap, hgap', rfl⟩)
    · exact ⟨[], .inl rfl, dots, mem_kstar_one.2 hblank, rfl⟩
    · have hfirst : gap ++ [byte '.'] ∈ 1 + blanks * one (· = byte '.') :=
        .inr (Language.append_mem_mul (mem_kstar_one.2 hgap) (mem_one_byte.2 rfl))
      have hwhole := Language.append_mem_mul hfirst (mem_kstar_one.2 hgap')
      rwa [List.append_assoc] at hwhole

/-- The pattern is that of the parts of a directive, with what it takes of what is behind them. -/
theorem mem_pattern_iff {text : Bytes} :
    text ∈ pattern ↔ ∃ word gap name gap' iri dots, IsForm word gap name gap' iri ∧ IsEnding dots
      ∧ text = formBytes word gap name gap' iri dots := by
  have hform : ∀ word gap name gap' iri dots : Bytes, formBytes word gap name gap' iri dots
      = word ++ gap ++ (name ++ [byte ':']) ++ gap' ++ ([byte '<'] ++ iri ++ [byte '>']) ++ dots := by
    intro word gap name gap' iri dots
    simp [formBytes]
  constructor
  · rintro ⟨_, ⟨_, ⟨_, ⟨_, ⟨word, hword, gap, hgap, rfl⟩, _, ⟨name, hname, colon, hcolon, rfl⟩, rfl⟩,
      gap', hgap', rfl⟩, _, ⟨_, ⟨opening, hopening, iri, hiri, rfl⟩, closing, hclosing, rfl⟩, rfl⟩,
      dots, hdots, rfl⟩
    obtain ⟨hne, hall⟩ := mem_one_mul_kstar.1 hgap
    refine ⟨word, gap, name, gap', iri, dots, ⟨mem_keyword_iff.1 hword, hne, hall,
      mem_kstar_one.1 hname, mem_kstar_one.1 hgap', mem_kstar_one.1 hiri⟩, mem_ending_iff.1 hdots, ?_⟩
    rw [hform, mem_one_byte.1 hcolon, mem_one_byte.1 hopening, mem_one_byte.1 hclosing]
  · rintro ⟨word, gap, name, gap', iri, dots, h, hdots, rfl⟩
    have hkey : word ++ gap ∈ keyword * (one isBlank * blanks) :=
      Language.append_mem_mul (mem_keyword_iff.2 h.word) (mem_one_mul_kstar.2 ⟨h.gap_ne_nil, h.gap⟩)
    have hname : name ++ [byte ':'] ∈ (one isNameByte)∗ * one (· = byte ':') :=
      Language.append_mem_mul (mem_kstar_one.2 h.name) (mem_one_byte.2 rfl)
    have hiri : [byte '<'] ++ iri ++ [byte '>']
        ∈ one (· = byte '<') * (one isIriByte)∗ * one (· = byte '>') :=
      Language.append_mem_mul (Language.append_mem_mul (mem_one_byte.2 rfl) (mem_kstar_one.2 h.iri))
        (mem_one_byte.2 rfl)
    rw [hform]
    exact Language.append_mem_mul (Language.append_mem_mul (Language.append_mem_mul
      (Language.append_mem_mul hkey hname) (mem_kstar_one.2 h.gap')) hiri) (mem_ending_iff.2 hdots)

/-- No ending in front is longer. -/
theorem length_afterDot_le {dots : Bytes} (hdots : IsEnding dots) (rest : Bytes) :
    ((afterDot (dots ++ rest)).dropWhile isBlank).length ≤ rest.length := by
  have hle : ∀ bytes : Bytes, (bytes.dropWhile isBlank).length ≤ bytes.length := fun bytes =>
    (List.dropWhile_suffix isBlank).length_le
  have hpass : ∀ {gap : Bytes}, gap.all isBlank → ∀ bytes : Bytes,
      (gap ++ bytes).dropWhile isBlank = bytes.dropWhile isBlank := fun hgap bytes =>
    List.dropWhile_append_of_pos (List.all_eq_true.1 hgap)
  rcases hdots with hblank | ⟨gap, gap', hgap, hgap', rfl⟩
  · unfold afterDot
    rw [hpass hblank]
    split
    · next b later hdrop =>
      split
      · -- There is a dot in the rest, which is taken as well.
        have hrest := hle rest
        rw [hdrop, List.length_cons] at hrest
        have := hle later
        omega
      · rw [hpass hblank]
        exact hle rest
    · rw [hpass hblank]
      exact hle rest
  · have hdrop : (gap ++ byte '.' :: gap' ++ rest).dropWhile isBlank = byte '.' :: (gap' ++ rest) := by
      rw [List.append_assoc, hpass hgap, List.cons_append,
        List.dropWhile_cons_of_neg (by decide)]
    unfold afterDot
    rw [hdrop]
    dsimp only
    rw [if_pos rfl, hpass hgap']
    exact hle rest

/-! ## Matches -/

/-- What a directive in front takes is in the pattern, and nothing longer in front is. -/
theorem longest_of_parts? {front later name iri : Bytes}
    (h : parts? (front ++ later) = some (name, iri, later)) :
    front ∈ pattern ∧ ∀ other ∈ pattern, other <+: front ++ later → other.length ≤ front.length := by
  constructor
  · obtain ⟨word, gap, gap', dots, hform, hdots, hbytes⟩ := exists_form_of_parts? h
    rw [List.append_cancel_right hbytes]
    exact mem_pattern_iff.2 ⟨_, _, _, _, _, _, hform, hdots, rfl⟩
  · rintro other hother ⟨rest, hrest⟩
    obtain ⟨word, gap, name', gap', iri', dots, hform, hdots, rfl⟩ := mem_pattern_iff.1 hother
    -- The parts of a directive are unique, so both end in what is behind the same ending.
    have hsame : parts? (front ++ later)
        = some (name', iri', (afterDot (dots ++ rest)).dropWhile isBlank) := by
      refine parts?_eq_some_iff.2 ⟨word, gap, gap', dots ++ rest, hform, ?_, rfl⟩
      rw [← hrest, formBytes_append]
    rw [h, Option.some.injEq, Prod.mk.injEq, Prod.mk.injEq] at hsame
    have hle := length_afterDot_le hdots rest
    rw [← hsame.2.2] at hle
    have hlength := congrArg List.length hrest
    rw [List.length_append, List.length_append] at hlength
    omega

/-- The bytes from one place to another. -/
def slice (bytes : Bytes) (start stop : Nat) : Bytes := (bytes.drop start).take (stop - start)

/-- Whether a token may start at a place: at the start of the text, or after a blank, a dot or a closing
brace. -/
def IsTokenStart (bytes : Bytes) (start : Nat) : Prop :=
  ∀ b ∈ (bytes.take start).getLast?, b ∈ [byte ' ', byte '\t', byte '\r', byte '\n', byte '.', byte '\x7d']

/-- Whether the text from one place to another is the match of the pattern there, which is the longest. -/
def IsMatch (bytes : Bytes) (start stop : Nat) : Prop :=
  slice bytes start stop ∈ pattern
    ∧ ∀ other ≤ bytes.length, slice bytes start other ∈ pattern → other ≤ stop

/-- A scan finds matches at places where a token may start. -/
theorem isMatch_of_mem_scan {bytes : Bytes} {d : Directive} (hd : d ∈ scan bytes) :
    IsTokenStart bytes d.start ∧ IsMatch bytes d.start d.stop := by
  obtain ⟨earlier, front, later, name, iri, hbytes, rfl, hstart, hparts⟩ :=
    @exists_of_mem_scanFrom [] bytes d hd
  rw [List.nil_append] at hbytes
  obtain ⟨hpattern, hlongest⟩ := longest_of_parts? hparts
  have hslice : ∀ stop, slice bytes earlier.length stop
      = (front ++ later).take (stop - earlier.length) := by
    intro stop
    rw [slice, hbytes, List.drop_left]
  refine ⟨?_, ?_, ?_⟩
  · intro b hb
    rw [hbytes, List.take_left] at hb
    rw [Option.mem_def.1 hb] at hstart
    simpa [mayPrecede, isBlank, or_assoc] using hstart
  · dsimp only
    rw [hslice, Nat.add_sub_cancel_left, List.take_left]
    exact hpattern
  · dsimp only
    intro stop hstop hother
    rw [hslice] at hother
    have hle := hlongest _ hother (List.take_prefix _ _)
    have hlength := congrArg List.length hbytes
    rw [List.length_append] at hlength
    rw [List.length_take_of_le (by omega)] at hle
    omega

end TidyTrig.Trig.Directive
