import TidyTrig.Proofs.Trig.RoundTrip
import TidyTrig.Proofs.Trig.Stepping

/-!
# What is written declares what was declared

A scan of what the writer has written finds the directives that it wrote and nothing else, with
one exception: a label that ends like a keyword, in front of a predicate without a local name and
an IRI in brackets, reads like a directive. `isMistaken` says which statements are spelled so.
-/

namespace TidyTrig.Trig

open Utf8 Directive

/-! ## Words -/

theorem isBlank_of_isGap {c : UInt8} (hc : IsGap c) : isBlank c := by
  rcases hc with rfl | rfl <;> decide

/-- The letters of a keyword. -/
theorem of_mem_keyword {word : Bytes} (hword : isKeyword word) {b : UInt8} (hb : b ∈ word) :
    isBlank b = false ∧ b ≠ byte ':' ∧ b ≠ byte '.' := by
  rw [isKeyword, Bool.or_eq_true, decide_eq_true_eq, decide_eq_true_eq] at hword
  rcases hword with rfl | hword
  · revert b
    decide +kernel
  · have hlower : lowerByte b ∈ encode "prefix" := by
      rw [← hword]
      exact List.mem_map_of_mem hb
    revert hlower
    clear hb
    revert b
    apply forall_byte
    decide +kernel

/-- A directive starts with a whole word that is a keyword. -/
theorem parts?_eq_none_of_word {word rest : Bytes} (hword : word.all fun b => !isBlank b)
    (hkeyword : isKeyword word = false) (hrest : ∀ b ∈ rest.head?, isBlank b) :
    parts? (word ++ rest) = none := by
  rw [Option.eq_none_iff_forall_ne_some]
  rintro ⟨name, iri, later⟩ hparts
  obtain ⟨key, gap, gap', after, hform, hbytes, -⟩ := parts?_eq_some_iff.1 hparts
  rw [formBytes] at hbytes
  rcases List.append_eq_append_iff.1 hbytes with ⟨mid, hkey, hmid⟩ | ⟨mid, hsplit, hmid⟩
  · cases mid with
    | nil =>
      rw [List.append_nil] at hkey
      have hsame := hform.word
      rw [hkey, hkeyword] at hsame
      cases hsame
    | cons b mid =>
      -- A blank would stand in the keyword.
      have hb : isBlank b := by
        apply hrest b
        rw [hmid]
        rfl
      have hmem : b ∈ key := by
        rw [hkey]
        exact List.mem_append_right _ List.mem_cons_self
      rw [(of_mem_keyword hform.word hmem).1] at hb
      cases hb
  · cases mid with
    | nil =>
      rw [List.append_nil] at hsplit
      have hsame := hform.word
      rw [← hsplit, hkeyword] at hsame
      cases hsame
    | cons b mid =>
      -- A blank would stand in the word.
      have hgap := hform.gap
      have hne := hform.gap_ne_nil
      cases gap with
      | nil => exact hne rfl
      | cons c gap =>
        have hbc : c = b := by
          rw [List.cons_append, List.cons_append] at hmid
          exact (List.cons.inj hmid).1
        have hmem : b ∈ word := by
          rw [hsplit]
          exact List.mem_append_right _ List.mem_cons_self
        have hb := List.all_eq_true.1 hword b hmem
        rw [List.all_cons, Bool.and_eq_true] at hgap
        rw [← hbc, hgap.1] at hb
        cases hb

/-- Whether a byte is passed alone, and no keyword starts after it or with its `@`. -/
def isInert (b : UInt8) : Bool := isPlainByte b && !mayPrecede (some b) && b ≠ byte '@'

theorem isBlank_of_isInert {b : UInt8} (hb : isInert b || b = byte '.') : isBlank b = false := by
  revert hb
  revert b
  apply forall_byte
  decide +kernel

theorem isPlainByte_of_isInert {b : UInt8} (hb : isInert b || b = byte '.') : isPlainByte b := by
  revert hb
  revert b
  apply forall_byte
  decide +kernel

/-- Names are made of inert bytes. -/
theorem isInert_of_isNameChar {c : Char} (hc : isNameChar c || c = ':') :
    (encodeChar c).all isInert := by
  apply List.all_eq_true.2
  intro b hb
  by_cases hascii : c.toNat < 0x80
  · have hall : ∀ n < 0x80, (isNameChar (Char.ofNat n) || Char.ofNat n = ':') →
        isInert (byte (Char.ofNat n)) := by
      decide +kernel
    have hbyte := hall c.toNat hascii
    rw [Char.ofNat_toNat] at hbyte
    rw [encodeChar_ascii hascii, List.mem_singleton] at hb
    rw [hb]
    exact hbyte hc
  · have hhigh : ∀ b : UInt8, 0x80 ≤ b → isInert b := by
      apply forall_byte
      decide +kernel
    exact hhigh b (le_of_mem_encodeChar (Nat.le_of_not_lt hascii) hb)

theorem all_isInert_flatMap {cs : List Char} (hcs : cs.all fun c => isNameChar c || c = ':') :
    (cs.flatMap encodeChar).all isInert := by
  apply List.all_eq_true.2
  intro b hb
  obtain ⟨c, hc, hmem⟩ := List.mem_flatMap.1 hb
  exact List.all_eq_true.1 (isInert_of_isNameChar (List.all_eq_true.1 hcs c hc)) b hmem

theorem all_dotted_flatMap {cs : List Char} (hcs : cs.all fun c => isNameChar c || c = '.') :
    (cs.flatMap encodeChar).all fun b => isInert b || b = byte '.' := by
  apply List.all_eq_true.2
  intro b hb
  obtain ⟨c, hc, hmem⟩ := List.mem_flatMap.1 hb
  have hchar := List.all_eq_true.1 hcs c hc
  rw [Bool.or_eq_true, decide_eq_true_eq] at hchar
  rcases hchar with hchar | rfl
  · have hname : isNameChar c || c = ':' := by
      rw [hchar]
      rfl
    rw [List.all_eq_true.1 (isInert_of_isNameChar hname) b hmem]
    rfl
  · rw [List.mem_singleton.1 hmem]
    rfl

/-- The bytes of names may stand in the name of a directive. -/
theorem all_isNameByte_flatMap {cs : List Char} (hcs : cs.all fun c => isNameChar c || c = '.') :
    (cs.flatMap encodeChar).all isNameByte := by
  have hbyte : ∀ b : UInt8, isInert b || b = byte '.' → b ≠ byte ':' → b ≠ byte '>' →
      isNameByte b := by
    apply forall_byte
    decide +kernel
  apply List.all_eq_true.2
  intro b hb
  have hne : ∀ d : Char, d.toNat < 0x80 → (isNameChar d || d = '.') = false → b ≠ byte d := by
    rintro d hascii hd rfl
    obtain ⟨c, hc, hmem⟩ := List.mem_flatMap.1 hb
    rw [(byte_mem_encodeChar_iff hascii).1 hmem] at hc
    exact absurd (List.all_eq_true.1 hcs _ hc) (Bool.eq_false_iff.1 hd)
  exact hbyte b (List.all_eq_true.1 (all_dotted_flatMap hcs) b hb) (hne ':' (by decide) (by decide))
    (hne '>' (by decide) (by decide))

/-- Where no token may start, inert bytes are free of directives. -/
theorem isFree_of_isInert {word : Bytes} (hword : word.all isInert) (rest : Bytes) :
    isFree false rest word := by
  induction word with
  | nil => rfl
  | cons b word ih =>
    rw [List.all_cons, Bool.and_eq_true] at hword
    have hb := hword.1
    rw [isInert, Bool.and_eq_true, Bool.and_eq_true, Bool.not_eq_true'] at hb
    rw [isFree, hb.1.1, hb.1.2, ih hword.2]
    rfl

theorem parts?_eq_none_of_dots {word rest : Bytes}
    (hword : ∀ b ∈ word, isInert b || b = byte '.') (hkeyword : isKeyword word = false)
    (hrest : ∀ b ∈ rest.head?, isBlank b) : parts? (word ++ rest) = none := by
  apply parts?_eq_none_of_word _ hkeyword hrest
  apply List.all_eq_true.2
  intro b hb
  rw [isBlank_of_isInert (hword b hb)]
  rfl

/-- A word with dots is free of directives if none stands where a token may start. -/
theorem isFree_of_dots {word rest : Bytes} (hword : word.all fun b => isInert b || b = byte '.')
    {mayStart : Bool} (hstart : mayStart → parts? (word ++ rest) = none)
    (hdots : ∀ u v, word = u ++ byte '.' :: v → v ≠ [] → parts? (v ++ rest) = none) :
    isFree mayStart rest word := by
  induction word generalizing mayStart with
  | nil => rfl
  | cons b word ih =>
    rw [List.all_cons, Bool.and_eq_true] at hword
    have hnone : (!mayStart || (parts? (b :: word ++ rest)).isNone) = true := by
      cases mayStart with
      | false => rfl
      | true =>
        rw [hstart rfl]
        rfl
    have hlater : isFree (mayPrecede (some b)) rest word := by
      by_cases hnil : word = []
      · rw [hnil]
        rfl
      · apply ih hword.2
        · intro hmay
          have hdot : b = byte '.' := by
            have hb := hword.1
            rw [isInert, hmay, Bool.not_true, Bool.and_false, Bool.false_and, Bool.false_or,
              decide_eq_true_eq] at hb
            exact hb
          apply hdots [] word _ hnil
          rw [hdot]
          rfl
        · intro u v huv hv
          apply hdots (b :: u) v _ hv
          rw [huv]
          rfl
    rw [isFree, isPlainByte_of_isInert hword.1, hnone, hlater]
    rfl

/-- A word with dots and a colon after them is free of directives. -/
theorem isFree_of_colon {front tail rest : Bytes}
    (hfront : front.all fun b => isInert b || b = byte '.') (htail : tail.all isInert)
    (hrest : ∀ b ∈ rest.head?, isBlank b) (mayStart : Bool) :
    isFree mayStart rest (front ++ byte ':' :: tail) := by
  have hall : ∀ b ∈ front ++ byte ':' :: tail, isInert b || b = byte '.' := by
    intro b hb
    rw [List.mem_append, List.mem_cons] at hb
    rcases hb with hb | rfl | hb
    · exact List.all_eq_true.1 hfront b hb
    · decide
    · rw [List.all_eq_true.1 htail b hb]
      rfl
  have hcolon : ∀ v : Bytes, (∀ b ∈ v, b ∈ front ++ byte ':' :: tail) → byte ':' ∈ v →
      parts? (v ++ rest) = none := by
    intro v hv hmem
    apply parts?_eq_none_of_dots (fun b hb => hall b (hv b hb)) _ hrest
    cases hkey : isKeyword v with
    | false => rfl
    | true => exact absurd rfl (of_mem_keyword hkey hmem).2.1
  apply isFree_of_dots (List.all_eq_true.2 hall)
  · intro _
    exact hcolon _ (fun _ hb => hb) (List.mem_append_right _ List.mem_cons_self)
  · intro u v huv _
    apply hcolon
    · intro b hb
      rw [huv]
      exact List.mem_append_right _ (List.mem_cons_of_mem _ hb)
    -- The dot stands before the colon, since what follows the colon has none.
    have hdot : byte '.' ∉ byte ':' :: tail := by
      intro hmem
      rcases List.mem_cons.1 hmem with h | h
      · exact absurd h (by decide)
      · exact absurd (List.all_eq_true.1 htail _ h) (by decide)
    rcases List.append_eq_append_iff.1 huv with ⟨mid, -, hmid⟩ | ⟨mid, -, hmid⟩
    · exfalso
      apply hdot
      rw [hmid]
      exact List.mem_append_right _ List.mem_cons_self
    · cases mid with
      | nil =>
        exfalso
        apply hdot
        rw [List.nil_append] at hmid
        rw [← hmid]
        exact List.mem_cons_self
      | cons b mid =>
        rw [List.cons_append] at hmid
        rw [(List.cons.inj hmid).2]
        exact List.mem_append_right _ List.mem_cons_self

/-! ## What follows a keyword -/

/-- Bytes up to the first blank are known from the whole. -/
theorem eq_of_append_blank {u v x y : Bytes} {c d : UInt8} (hu : ∀ b ∈ u, isBlank b = false)
    (hv : ∀ b ∈ v, isBlank b = false) (hc : isBlank c) (hd : isBlank d)
    (h : u ++ c :: x = v ++ d :: y) : u = v ∧ c :: x = d :: y := by
  have hall : ∀ w : Bytes, (∀ b ∈ w, isBlank b = false) → w.all fun b => !isBlank b := by
    intro w hw
    apply List.all_eq_true.2
    intro b hb
    rw [hw b hb]
    rfl
  have hstop : ∀ (e : UInt8) (z : Bytes), isBlank e → ∀ b ∈ (e :: z).head?, (!isBlank b) = false := by
    intro e z he b hb
    cases hb
    rw [he]
    rfl
  obtain ⟨hdrop, htake⟩ := dropWhile_append_of_head (hall u hu) (hstop c x hc)
  obtain ⟨hdrop', htake'⟩ := dropWhile_append_of_head (hall v hv) (hstop d y hd)
  rw [h] at hdrop htake
  exact ⟨htake.symm.trans htake', hdrop.symm.trans hdrop'⟩

/-- What follows a keyword and one blank in a directive. -/
theorem exists_name_of_parts? {key rest name iri later : Bytes} {c : UInt8} (hkey : isKeyword key)
    (hc : isBlank c) (hrest : ∀ b ∈ rest.head?, isBlank b = false)
    (h : parts? (key ++ c :: rest) = some (name, iri, later)) :
    ∃ gap after, rest = name ++ byte ':' :: (gap ++ byte '<' :: after) ∧ name.all isNameByte
      ∧ gap.all isBlank := by
  obtain ⟨key', gap, gap', after, hform, hbytes, -⟩ := parts?_eq_some_iff.1 h
  refine ⟨gap', iri ++ byte '>' :: after, ?_, hform.name, hform.gap'⟩
  have hgapne := hform.gap_ne_nil
  have hgap := hform.gap
  cases gap with
  | nil => exact absurd rfl hgapne
  | cons d gap =>
    rw [List.all_cons, Bool.and_eq_true] at hgap
    obtain ⟨-, hsame⟩ := eq_of_append_blank (fun b hb => (of_mem_keyword hkey hb).1)
      (fun b hb => (of_mem_keyword hform.word hb).1) hc hgap.1 hbytes
    have hblank : [c].all isBlank := by
      rw [List.all_cons, hc]
      rfl
    have hblanks : (d :: gap).all isBlank := by
      rw [List.all_cons, hgap.1, hgap.2]
      rfl
    have hleft := (dropWhile_append_of_head hblank hrest).1
    have hright := (dropWhile_append_of_head hblanks (head?_name_colon hform.name
      (gap' ++ byte '<' :: (iri ++ byte '>' :: after)))).1
    have hwhole : [c] ++ rest = d :: gap
        ++ (name ++ byte ':' :: (gap' ++ byte '<' :: (iri ++ byte '>' :: after))) := hsame
    rw [hwhole] at hleft
    exact hleft.symm.trans hright

/-- A keyword goes on as a directive only if its next word is a name and a colon, and an IRI in
brackets follows. -/
theorem parts?_eq_none_of_second {key word rest : Bytes} {c c' : UInt8} (hkey : isKeyword key)
    (hc : isBlank c) (hc' : isBlank c') (hword : ∀ b ∈ word, isBlank b = false) (hne : word ≠ [])
    (hangle : word.head? = some (byte '<') ∨ byte '<' ∉ word)
    (hcolon : word.getLast? = some (byte ':') →
      ∃ d tail, rest = d :: tail ∧ isBlank d = false ∧ d ≠ byte '<') :
    parts? (key ++ c :: (word ++ c' :: rest)) = none := by
  rw [Option.eq_none_iff_forall_ne_some]
  rintro ⟨name, iri, later⟩ hparts
  have hhead : ∀ b ∈ (word ++ c' :: rest).head?, isBlank b = false := by
    intro b hb
    cases word with
    | nil => exact absurd rfl hne
    | cons e word =>
      cases hb
      exact hword _ List.mem_cons_self
  obtain ⟨gap, after, hafter, hname, hgap⟩ := exists_name_of_parts? hkey hc hhead hparts
  have hcolonName : ∀ b ∈ (byte ':' :: (gap ++ byte '<' :: after)).head?, isNameByte b = false := by
    rintro b ⟨⟩
    decide
  have hdrop := (dropWhile_append_of_head hname hcolonName).1
  rw [← hafter] at hdrop
  have hsplit := List.takeWhile_append_dropWhile (p := isNameByte) (l := word)
  have hfront : (word.takeWhile isNameByte).all isNameByte := List.all_takeWhile
  cases htail : word.dropWhile isNameByte with
  | nil =>
    -- The name would go on up to the blank.
    rw [htail, List.append_nil] at hsplit
    rw [hsplit] at hfront
    have hstop : ∀ b ∈ (c' :: rest).head?, isNameByte b = false := by
      rintro b ⟨⟩
      rw [isNameByte, hc']
      rfl
    rw [(dropWhile_append_of_head hfront hstop).1] at hdrop
    rw [(List.cons.inj hdrop).1] at hc'
    exact absurd hc' (by decide)
  | cons b tail =>
    have hb : isNameByte b = false := by
      have hhead := List.head?_dropWhile_not isNameByte word
      rw [htail] at hhead
      simpa using hhead
    rw [htail] at hsplit
    rw [← hsplit, List.append_assoc, List.cons_append,
      (dropWhile_append_of_head hfront (by rintro b' ⟨⟩; exact hb)).1] at hdrop
    obtain ⟨rfl, hiri⟩ := List.cons.inj hdrop
    have hangle' : byte '<' ∉ word := by
      rcases hangle with hfirst | hangle
      · cases hword' : word.takeWhile isNameByte with
        | nil =>
          rw [hword', List.nil_append] at hsplit
          rw [← hsplit] at hfirst
          exact absurd (Option.some.inj hfirst) (by decide)
        | cons e front =>
          rw [hword', List.cons_append] at hsplit
          rw [← hsplit] at hfirst
          rw [hword', List.all_cons, Option.some.inj hfirst, Bool.and_eq_true] at hfront
          exact absurd hfront.1 (by decide)
      · exact hangle
    cases tail with
    | nil =>
      obtain ⟨e, tail, rfl, he, hne'⟩ := hcolon (by rw [← hsplit, List.getLast?_concat])
      -- The IRI would have to start with the word after the colon.
      cases gap with
      | nil =>
        rw [(List.cons.inj hiri).1] at hc'
        exact absurd hc' (by decide)
      | cons g gap =>
        have hlater := (List.cons.inj hiri).2
        cases gap with
        | nil => exact hne' (List.cons.inj hlater).1
        | cons g' gap =>
          rw [List.all_cons, List.all_cons, Bool.and_eq_true, Bool.and_eq_true] at hgap
          rw [(List.cons.inj hlater).1, hgap.2.1] at he
          cases he
    | cons e tail =>
      have hmem : e ∈ word := by
        rw [← hsplit]
        exact List.mem_append_right _ (List.mem_cons_of_mem _ List.mem_cons_self)
      cases gap with
      | nil =>
        rw [(List.cons.inj hiri).1] at hmem
        exact hangle' hmem
      | cons g gap =>
        rw [List.all_cons, Bool.and_eq_true] at hgap
        have he := hword e hmem
        rw [(List.cons.inj hiri).1, hgap.1] at he
        cases he

/-! ## Words of the writer -/

/-- A word in front of a blank is passed. -/
def IsPassed (word : Bytes) : Prop :=
  ∀ mayStart c rest, IsGap c → finds mayStart (word ++ c :: rest) = finds true rest

theorem finds_gap {c : UInt8} (hc : IsGap c) (mayStart : Bool) (rest : Bytes) :
    finds mayStart (c :: rest) = finds true rest := by
  have hgap : [c].all isBlank := by
    rw [List.all_cons, isBlank_of_isGap hc]
    rfl
  exact finds_blanks hgap (List.cons_ne_nil _ _) mayStart rest

theorem head?_gap {c : UInt8} (hc : IsGap c) (rest : Bytes) :
    ∀ b ∈ (c :: rest).head?, isBlank b := by
  intro b hb
  cases hb
  exact isBlank_of_isGap hc

theorem isPassed_of_isFree {word : Bytes}
    (h : ∀ mayStart c rest, IsGap c → isFree mayStart (c :: rest) word) : IsPassed word := by
  intro mayStart c rest hc
  rw [finds_word (h mayStart c rest hc), finds_gap hc]

/-- An IRI in brackets is passed. -/
theorem isPassed_angle {iri : String} (hiri : (encode iri).all isIriByte) :
    IsPassed (encode ("<" ++ iri ++ ">")) := by
  intro mayStart c rest hc
  have hbytes : encode ("<" ++ iri ++ ">") ++ c :: rest
      = byte '<' :: (encode iri ++ byte '>' :: (c :: rest)) := by
    rw [encode_append, encode_append, List.append_assoc, List.append_assoc]
    rfl
  rw [hbytes, finds_angle hiri, finds_gap hc]

theorem all_of_isPrefixName {name : List Char} (h : isPrefixName name) :
    name.all fun c => isNameChar c || c = '.' := by
  cases name with
  | nil => rfl
  | cons c cs =>
    simp only [isPrefixName, Bool.and_eq_true] at h
    rw [List.all_cons, h.1.2, isNameChar_of_isNameStart h.1.1]
    rfl

/-- A prefixed name is passed. -/
theorem isFree_name {name localPart : List Char} (hname : isPrefixName name)
    (hlocal : isPlainName localPart) {rest : Bytes} (hrest : ∀ b ∈ rest.head?, isBlank b)
    (mayStart : Bool) :
    isFree mayStart rest (encode (.ofList name ++ ":" ++ .ofList localPart)) := by
  have hfront := all_of_isPrefixName hname
  have htail : localPart.all fun c => isNameChar c || c = ':' := by
    apply List.all_eq_true.2
    intro c hc
    rw [isNameChar_of_isPlainNameChar (List.all_eq_true.1 (all_of_isPlainName hlocal) c hc)]
    rfl
  have hbytes : encode (.ofList name ++ ":" ++ .ofList localPart)
      = name.flatMap encodeChar ++ byte ':' :: localPart.flatMap encodeChar := by
    rw [encode_append, encode_append, encode_ofList name, encode_ofList localPart,
      List.append_assoc]
    rfl
  rw [hbytes]
  exact isFree_of_colon (all_dotted_flatMap hfront) (all_isInert_flatMap htail) hrest mayStart

/-- Whether a label ends like the keyword of a directive, so that what follows it may look like
one. -/
def endsLikeKeyword (label : String) : Bool :=
  ((encode label).drop ((encode label).length - 7)).map lowerByte = encode ".prefix"

theorem all_of_isLabelTail {afterDot : Bool} {cs : List Char} (h : isLabelTail afterDot cs) :
    cs.all fun c => isNameChar c || c = '.' := by
  induction cs generalizing afterDot with
  | nil => rfl
  | cons c cs ih =>
    rw [isLabelTail] at h
    split at h
    · next hc =>
      rw [Bool.and_eq_true] at h
      rw [List.all_cons, ih h.2, hc]
      rfl
    · rw [Bool.and_eq_true] at h
      rw [List.all_cons, ih h.2, h.1]
      rfl

theorem all_of_isLabel {cs : List Char} (h : isLabel cs) :
    cs.all fun c => isNameChar c || c = '.' := by
  cases cs with
  | nil => rfl
  | cons c cs =>
    rw [isLabel, Bool.and_eq_true] at h
    have hc : isNameChar c := by
      have hfirst := h.1
      rw [Bool.or_eq_true] at hfirst
      rcases hfirst with hfirst | hfirst
      · exact isNameChar_of_isLabelStart hfirst
      · exact isNameChar_of_isDigit hfirst
    rw [List.all_cons, hc, all_of_isLabelTail h.2]
    rfl

theorem all_dotted_label {label : String} (hlabel : isLabel label.toList) :
    (encode ("_:" ++ label)).all fun b => isInert b || b = byte '.' := by
  have hdotted := all_dotted_flatMap (all_of_isLabel hlabel)
  have hbytes : encode ("_:" ++ label) = byte '_' :: byte ':' :: label.toList.flatMap encodeChar := by
    rw [encode_append]
    rfl
  rw [hbytes, List.all_cons, List.all_cons, hdotted]
  decide

/-- A label is passed if nothing after it looks like the rest of a directive, which matters only
where the label ends like a keyword. -/
theorem isFree_label {label : String} (hlabel : isLabel label.toList) {rest : Bytes}
    (hrest : ∀ b ∈ rest.head?, isBlank b)
    (hnone : endsLikeKeyword label → ∀ word, isKeyword word → parts? (word ++ rest) = none)
    (mayStart : Bool) : isFree mayStart rest (encode ("_:" ++ label)) := by
  have hdotted := all_dotted_label hlabel
  have hbytes : encode ("_:" ++ label) = byte '_' :: byte ':' :: encode label := by
    rw [encode_append]
    rfl
  rw [hbytes] at hdotted ⊢
  apply isFree_of_dots hdotted
  · intro _
    apply parts?_eq_none_of_dots (List.all_eq_true.1 hdotted) _ hrest
    cases hkey : isKeyword (byte '_' :: byte ':' :: encode label) with
    | false => rfl
    | true =>
      have hmem : byte ':' ∈ byte '_' :: byte ':' :: encode label :=
        List.mem_cons_of_mem _ List.mem_cons_self
      exact absurd rfl (of_mem_keyword hkey hmem).2.1
  · intro u v huv _
    have hinert : ∀ b ∈ v, isInert b || b = byte '.' := by
      intro b hb
      apply List.all_eq_true.1 hdotted b
      rw [huv]
      exact List.mem_append_right _ (List.mem_cons_of_mem _ hb)
    cases hkey : isKeyword v with
    | false => exact parts?_eq_none_of_dots hinert hkey hrest
    | true =>
      apply hnone _ v hkey
      have hlower : v.map lowerByte = encode "prefix" := by
        rw [isKeyword, Bool.or_eq_true, decide_eq_true_eq, decide_eq_true_eq] at hkey
        rcases hkey with rfl | hkey
        · exact absurd (hinert (byte '@') List.mem_cons_self) (by decide)
        · exact hkey
      have hlength : v.length = 6 := by
        have := congrArg List.length hlower
        rw [List.length_map] at this
        exact this
      -- The dot stands in the label itself.
      obtain ⟨u', hu⟩ : ∃ u', encode label = u' ++ byte '.' :: v := by
        cases u with
        | nil => exact absurd (List.cons.inj huv).1 (by decide)
        | cons b u =>
          have hrest := (List.cons.inj huv).2
          cases u with
          | nil => exact absurd (List.cons.inj hrest).1 (by decide)
          | cons b' u => exact ⟨u, (List.cons.inj hrest).2⟩
      have hdrop : (u' ++ byte '.' :: v).length - 7 = u'.length := by
        rw [List.length_append, List.length_cons, hlength]
        omega
      rw [endsLikeKeyword, hu, hdrop, List.drop_left, List.map_cons, hlower]
      decide

theorem isPassed_a : IsPassed (encode "a") := by
  apply isPassed_of_isFree
  intro mayStart c rest hc
  have hword : (encode "a").all fun b => isInert b || b = byte '.' := by decide
  apply isFree_of_dots hword
  · intro _
    exact parts?_eq_none_of_dots (List.all_eq_true.1 hword) (by decide) (head?_gap hc rest)
  · intro u v huv _
    cases u with
    | nil => exact absurd (List.cons.inj huv).1 (by decide)
    | cons b u =>
      have hrest := (List.cons.inj huv).2
      cases u <;> cases hrest

/-! ## Terms -/

/-- The marks that the writer sets behind a term. -/
def isMarkByte (b : UInt8) : Bool :=
  b = byte '.' || b = byte ';' || b = byte ',' || b = byte '\x7b'

theorem isMarkByte_spec (b : UInt8) (h : isMarkByte b) :
    isPlainByte b ∧ isBlank b = false ∧ lowerByte b ≠ byte 'p' ∧ b ≠ byte '@' ∧ b ≠ byte '<'
      ∧ b ≠ byte ':' := by
  revert h
  revert b
  apply forall_byte
  decide +kernel

/-- A mark between blanks is passed. -/
theorem finds_mark {m c : UInt8} (hm : isMarkByte m) (hc : IsGap c) (rest : Bytes) :
    finds true (m :: c :: rest) = finds true rest := by
  obtain ⟨hplain, -, hp, hat, -⟩ := isMarkByte_spec m hm
  rw [finds_byte hplain (fun _ => parts?_eq_none hp hat _), finds_gap hc]

theorem all_isNameChar_of_hasBlocks {inEmptyBlock : Bool} {cs : List Char}
    (h : LanguageTag.hasBlocks inEmptyBlock cs) : cs.all fun c => isNameChar c || c = ':' := by
  induction cs generalizing inEmptyBlock with
  | nil => rfl
  | cons c cs ih =>
    rw [LanguageTag.hasBlocks] at h
    split at h
    · next hc =>
      rw [Bool.and_eq_true] at h
      rw [List.all_cons, ih h.2, hc]
      decide
    · rw [Bool.and_eq_true] at h
      have hplain : isPlainNameChar c := by
        simp [isPlainNameChar, Char.isAlphanum, h.1]
      rw [List.all_cons, ih h.2, isNameChar_of_isPlainNameChar hplain]
      rfl

theorem finds_inside {b : UInt8} (hb : isPlainByte b) (hstart : mayPrecede (some b) = false)
    (rest : Bytes) : finds false (b :: rest) = finds false rest := by
  rw [finds_byte hb (fun h => absurd h Bool.false_ne_true), hstart]

/-- A string in quotes is passed up to what follows its closing quote. -/
theorem finds_quoted (text : String) (mayStart : Bool) {c : UInt8} (hc : c ≠ byte '\x22')
    (rest : Bytes) :
    finds mayStart (encode (quoted text) ++ c :: rest) = finds false (c :: rest) := by
  have hword := encode_quoted text
  have hscan := scanString_quoted text.toList hc rest
  generalize (text.toList.flatMap escaped).flatMap encodeChar = inside at hscan hword
  have htail : inside ++ byte '\x22' :: c :: rest = inside ++ [byte '\x22'] ++ c :: rest := by
    rw [List.append_assoc]
    rfl
  have hlength : inside.length + 2 = (byte '\x22' :: (inside ++ [byte '\x22'])).length := by
    rw [List.length_cons, List.length_append]
    rfl
  rw [htail, hlength] at hscan
  rw [hword, finds_string (.inl rfl) hscan, ← List.cons_append, List.getLast?_concat]
  rfl

section

variable {inForce : List Namespace} (hnames : ∀ space ∈ inForce, isPrefixName space.name.toList)
include hnames

/-- An IRI is spelled as a prefixed name or between brackets. -/
theorem spellIri_cases (iri : String) :
    (∃ name localPart, isPrefixName name ∧ isPlainName localPart
        ∧ spellIri inForce iri = .ofList name ++ ":" ++ .ofList localPart)
      ∨ spellIri inForce iri = "<" ++ iri ++ ">" := by
  unfold spellIri
  split
  · next space name hlongest =>
    obtain ⟨hspace, -, hplain⟩ := of_mem_abbreviations (mem_of_longest hlongest)
    refine .inl ⟨space.name.toList, name, hnames space hspace, hplain, ?_⟩
    rw [String.ofList_toList]
  · exact .inr rfl

theorem isPassed_iri {iri : String} (h : isIri iri) : IsPassed (encode (spellIri inForce iri)) := by
  rcases spellIri_cases hnames iri with ⟨name, localPart, hname, hlocal, heq⟩ | heq
  · rw [heq]
    apply isPassed_of_isFree
    intro mayStart c rest hc
    exact isFree_name hname hlocal (head?_gap hc rest) mayStart
  · obtain ⟨i, hi⟩ := exists_of_isIri h
    rw [heq]
    exact isPassed_angle (all_isIriByte_of_readsAs (readsAs_of_parse hi none))

theorem isPassed_predicate (usesKeyword : Bool) {predicate : String} (h : isIri predicate) :
    IsPassed (encode (spellPredicate inForce usesKeyword (.iri predicate))) := by
  unfold spellPredicate
  split
  · exact isPassed_a
  · exact isPassed_iri hnames h

theorem isPassed_literal {value : Literal} (h : value.isSpellable) :
    IsPassed (encode (spellLiteral inForce value)) := by
  intro mayStart c rest hc
  have hquote : c ≠ byte '\x22' := by
    rcases hc with rfl | rfl <;> decide
  cases value with
  | simple lexical =>
    show finds mayStart (encode (quoted lexical) ++ c :: rest) = _
    rw [finds_quoted lexical mayStart hquote, finds_gap hc]
  | tagged lexical language =>
    have hbytes : encode (spellLiteral inForce (.tagged lexical language)) ++ c :: rest
        = encode (quoted lexical) ++ byte '@' :: (encode language ++ c :: rest) := by
      rw [spellLiteral, encode_append, encode_append, List.append_assoc, List.append_assoc]
      rfl
    have htag : (encode language).all isInert :=
      all_isInert_flatMap (all_isNameChar_of_hasBlocks (LanguageTag.hasBlocks_of_isTag h))
    rw [hbytes, finds_quoted lexical mayStart (by decide), finds_inside (by decide) (by decide),
      finds_word (isFree_of_isInert htag (c :: rest)), finds_gap hc]
  | typed lexical datatype _ =>
    have hbytes : spellLiteral inForce (.typed lexical datatype ‹_›)
        = quoted lexical ++ "^^" ++ spellIri inForce datatype := rfl
    have hwhole : encode (quoted lexical ++ "^^" ++ spellIri inForce datatype) ++ c :: rest
        = encode (quoted lexical)
          ++ byte '^' :: (byte '^' :: (encode (spellIri inForce datatype) ++ c :: rest)) := by
      rw [encode_append, encode_append, List.append_assoc, List.append_assoc]
      rfl
    rw [hbytes, hwhole, finds_quoted lexical mayStart (by decide), finds_inside (by decide)
      (by decide), finds_inside (by decide) (by decide), isPassed_iri hnames h _ c rest hc]

/-- A term is passed if nothing after it looks like the rest of a directive, which matters only
for a label that ends like a keyword. -/
theorem finds_term {term : Term} (h : term.isSpellable) {c : UInt8} (hc : IsGap c) {rest : Bytes}
    (hnone : ∀ label, term = .blank label → endsLikeKeyword label → ∀ word, isKeyword word →
      parts? (word ++ c :: rest) = none) (mayStart : Bool) :
    finds mayStart (encode (spellTerm inForce term) ++ c :: rest) = finds true rest := by
  cases term with
  | iri text => exact isPassed_iri hnames h mayStart c rest hc
  | blank label =>
    have hfree := isFree_label h (head?_gap hc rest) (hnone label rfl) mayStart
    show finds mayStart (encode ("_:" ++ label) ++ c :: rest) = _
    rw [finds_word hfree, finds_gap hc]
  | literal value => exact isPassed_literal hnames h mayStart c rest hc

/-- In front of a mark, every term is passed. -/
theorem finds_term_mark {term : Term} (h : term.isSpellable) {m c : UInt8} (hm : isMarkByte m)
    (hc : IsGap c) (mayStart : Bool) (rest : Bytes) :
    finds mayStart (encode (spellTerm inForce term) ++ byte ' ' :: m :: c :: rest)
      = finds true rest := by
  obtain ⟨-, hblank, -, -, hangle, hcolon⟩ := isMarkByte_spec m hm
  rw [finds_term hnames h (.inl rfl), finds_mark hm hc]
  intro label _ _ word hword
  have hnone := @parts?_eq_none_of_second _ [m] rest _ _ hword (isBlank_of_isGap (.inl rfl))
    (isBlank_of_isGap hc)
    (by intro b hb; rw [List.mem_singleton.1 hb]; exact hblank) (List.cons_ne_nil _ _)
    (.inr fun hmem => hangle (List.mem_singleton.1 hmem).symm)
    (by intro hlast; exact absurd (Option.some.inj hlast) hcolon)
  exact hnone

end

end TidyTrig.Trig
