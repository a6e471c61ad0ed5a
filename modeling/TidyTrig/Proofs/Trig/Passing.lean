import TidyTrig.Proofs.Trig.Grammar
import TidyTrig.Proofs.Trig.Rescan
import TidyTrig.Proofs.Trig.Waiting
import TidyTrig.Proofs.Trig.Yield

/-!
# A scan passes what a parser reads

`Spells` says how the bytes of a token make it up, as far as a scan for directives is concerned, and
`isSpelled_scan` that each token is spelled so by its bytes. From that follows what the scan makes of the
bytes that the parser reads: it passes strings and IRIs as a whole, other tokens if nothing in them looks
like something else (`finds_of_spells`), and blanks and comments unless a comment goes on for it
(`finds_spacing`); and it knows the parts of a declaration when it comes to them.
-/

namespace TidyTrig.Trig

open Utf8 Directive

/-! ## How tokens are spelled -/

/-- Whether a token is a number, a mark, a label or a variable. -/
def Token.isOther : Token → Bool
  | .iri _ | .name .. | .string _ | .language _ | .keyword _ => false
  | _ => true

/-- Some bytes spell a token in front of `rest`. Of labels, variables, numbers and marks it is only
said that they take some bytes. -/
inductive Spells (base : Option Iri) (rest : Bytes) : Token → Bytes → Prop
  | iri {i : Iri} {inside : Bytes} (hinside : inside.all isIriByte)
    (hscan : scanIri base (inside ++ byte '>' :: rest) = .found (.iri i) (inside.length + 2)) :
    Spells base rest (.iri i) (byte '<' :: (inside ++ [byte '>']))
  | string {value : String} {quote : UInt8} {tail : Bytes}
    (hquote : quote = byte '\x22' ∨ quote = byte '\x27')
    (hscan : scanString quote (tail ++ rest) = .found (.string value) (quote :: tail).length) :
    Spells base rest (.string value) (quote :: tail)
  | keyword (word : List Char) : Spells base rest (.keyword (.ofList word)) (word.flatMap encodeChar)
  | name {space : List Char} {localPart : String} {isDoubtful : Bool} {inside : Bytes}
    (hspace : space.all fun c => isNameChar c || c = '.')
    (hscan : scanLocal true .empty (inside ++ rest) = .found ⟨localPart, isDoubtful⟩ inside.length) :
    Spells base rest (.name (.ofList space) localPart isDoubtful)
      (space.flatMap encodeChar ++ byte ':' :: inside)
  | language (tag : List Char) :
    Spells base rest (.language (.ofList tag)) (byte '@' :: tag.flatMap encodeChar)
  | other {t : Token} {text : Bytes} (ht : t.isOther) (hne : text ≠ []) : Spells base rest t text

/-- What is found is spelled by the first of these bytes. -/
def Scan.IsSpelled (base : Option Iri) (bytes : Bytes) : Scan Token → Prop
  | .found t n => Spells base (bytes.drop n) t (bytes.take n)
  | _ => True

/-- What is found is a number, a mark, a label or a variable, and is not empty. -/
def Scan.IsOther : Scan Token → Prop
  | .found t n => t.isOther ∧ 0 < n
  | _ => True

theorem Scan.IsOther.isSpelled {x : Scan Token} (h : x.IsOther) (base : Option Iri) (b : UInt8)
    (rest : Bytes) : x.IsSpelled base (b :: rest) := by
  cases x with
  | found t n =>
    refine .other h.1 fun hnil => ?_
    rw [List.take_eq_nil_iff] at hnil
    rcases hnil with hzero | hnil
    · exact absurd hzero (Nat.pos_iff_ne_zero.1 h.2)
    · cases hnil
  | wait | fault => trivial

theorem isOther_closePlain (number : Bytes) (p : NumberParts) : (closePlain number p).IsOther := by
  unfold closePlain
  dsimp only
  split
  · next hfraction =>
    refine ⟨rfl, ?_⟩
    cases hp : p.fraction with
    | none => rw [hp] at hfraction; exact absurd rfl hfraction
    | some n =>
      rw [NumberParts.size, hp, Option.elim_some]
      omega
  · split
    · trivial
    · next hwhole => exact ⟨rfl, by omega⟩

theorem isOther_closeDouble (ended : Bool) (number : Bytes) (p : NumberParts) (bytes : Bytes) :
    (closeDouble ended number p bytes).IsOther := by
  unfold closeDouble
  dsimp only
  split
  · trivial
  · split
    · trivial
    · split
      · trivial
      · exact ⟨rfl, by omega⟩

theorem isOther_scanNumber (ended : Bool) (number : Bytes) : (scanNumber ended number).IsOther := by
  rw [scanNumber_eq]
  split
  · split
    · exact isOther_closePlain _ _
    · trivial
  · split
    · exact isOther_closeDouble _ _ _ _
    · exact isOther_closePlain _ _

theorem isOther_scanLabel (read : List Char) {size : Nat} (hsize : 1 < size) (bytes : Bytes) :
    (scanLabel read size bytes).IsOther := by
  fun_induction scanLabel read size bytes with
  | case1 => trivial
  | case2 => trivial
  | case3 => trivial
  | case4 _ _ _ _ _ _ _ _ _ ih => exact ih (Nat.lt_add_right _ hsize)
  | case5 => trivial
  | case6 _ _ _ _ _ _ _ _ _ _ ih => exact ih (Nat.lt_add_right _ hsize)
  | case7 read size b rest withoutDot =>
    refine ⟨rfl, ?_⟩
    have hdot : withoutDot ≤ 1 := by
      dsimp only [withoutDot]
      split <;> omega
    omega

theorem isOther_scanUnderscore (bytes : Bytes) : (scanUnderscore bytes).IsOther := by
  unfold scanUnderscore
  split
  · trivial
  · split
    · exact isOther_scanLabel [] Nat.one_lt_two _
    · trivial

theorem isOther_scanVariable (ended : Bool) (bytes : Bytes) : (scanVariable ended bytes).IsOther := by
  unfold scanVariable
  split
  · trivial
  · trivial
  · split
    · trivial
    · exact ⟨rfl, by omega⟩

theorem isOther_scanDot (ended : Bool) (bytes : Bytes) : (scanDot ended bytes).IsOther := by
  unfold scanDot
  split
  · split
    · exact ⟨rfl, Nat.one_pos⟩
    · trivial
  · split
    · exact isOther_scanNumber ended _
    · exact ⟨rfl, Nat.one_pos⟩

theorem isOther_scanMark (second : UInt8) (long short : Mark) (bytes : Bytes) :
    (scanMark second long short bytes).IsOther := by
  unfold scanMark
  split
  · trivial
  · split
    · exact ⟨rfl, Nat.two_pos⟩
    · exact ⟨rfl, Nat.one_pos⟩

/-- The dots that a keyword gives back take a byte each. -/
theorem isSpelled_closeKeyword (base : Option Iri) (read : List Char) (rest : Bytes) :
    (closeKeyword read (read.reverse.flatMap encodeChar).length).IsSpelled base
      (read.reverse.flatMap encodeChar ++ rest) := by
  have hwhole := List.takeWhile_append_dropWhile (p := (· = '.')) (l := read)
  have hdrop : read.drop (trailingDots read) = read.dropWhile (· = '.') := by
    have hleft : (read.takeWhile (· = '.') ++ read.dropWhile (· = '.')).drop (trailingDots read)
        = read.dropWhile (· = '.') := List.drop_left
    rwa [hwhole] at hleft
  have hdots : ((read.takeWhile (· = '.')).reverse.flatMap encodeChar).length = trailingDots read := by
    have hascii : (read.takeWhile (· = '.')).reverse.all (·.toNat < 0x80) := by
      apply List.all_eq_true.2
      intro c hc
      have hdot := List.mem_takeWhile_imp (List.mem_reverse.1 hc)
      rw [decide_eq_true_eq] at hdot
      rw [hdot]
      decide
    rw [flatMap_encodeChar_ascii hascii, List.length_map, List.length_reverse, trailingDots]
  have hbytes : read.reverse.flatMap encodeChar
      = (read.dropWhile (· = '.')).reverse.flatMap encodeChar
        ++ (read.takeWhile (· = '.')).reverse.flatMap encodeChar := by
    rw [← List.flatMap_append, ← List.reverse_append, hwhole]
  have hsize : (read.reverse.flatMap encodeChar).length - trailingDots read
      = ((read.dropWhile (· = '.')).reverse.flatMap encodeChar).length := by
    rw [hbytes, List.length_append, hdots, Nat.add_sub_cancel]
  unfold closeKeyword Scan.IsSpelled
  dsimp only
  rw [hsize, hbytes, List.append_assoc, List.take_left, hdrop]
  exact .keyword _

theorem isSpelled_scanAfterColon (base : Option Iri) {space : List Char}
    (hspace : space.all fun c => isNameChar c || c = '.') (bytes : Bytes) :
    (scanAfterColon true space ((space.flatMap encodeChar).length + 1) bytes).IsSpelled base
      (space.flatMap encodeChar ++ byte ':' :: bytes) := by
  have hfits := fits_scanLocal true .empty bytes
  unfold scanAfterColon
  split
  · trivial
  · cases hscan : scanLocal true .empty bytes with
    | wait | fault => trivial
    | found name more =>
      rw [hscan] at hfits
      have hlength : (bytes.take more).length = more := by
        rw [List.length_take_of_le]
        exact Nat.zero_add bytes.length ▸ hfits
      have hsplit : space.flatMap encodeChar ++ byte ':' :: bytes
          = (space.flatMap encodeChar ++ byte ':' :: bytes.take more) ++ bytes.drop more := by
        rw [List.append_assoc, List.cons_append, List.take_append_drop]
      have hsize : (space.flatMap encodeChar).length + 1 + more
          = (space.flatMap encodeChar ++ byte ':' :: bytes.take more).length := by
        rw [List.length_append, List.length_cons, hlength]
        omega
      dsimp only
      rw [Scan.IsSpelled, hsplit, hsize, List.take_left, List.drop_left]
      refine .name hspace ?_
      rw [List.take_append_drop, hlength]
      exact hscan

/-- What was read stands in front of what follows. -/
theorem isSpelled_scanName (base : Option Iri) {read : List Char} {size : Nat} {bytes : Bytes}
    (hread : read.all fun c => isNameChar c || c = '.')
    (hsize : size = (read.reverse.flatMap encodeChar).length) :
    (scanName true read size bytes).IsSpelled base (read.reverse.flatMap encodeChar ++ bytes) := by
  have hchar : ∀ {b : UInt8} {rest : Bytes} {c : Char} {width : Nat},
      decodeNext (b :: rest) = .char c width →
      b :: rest = encodeChar c ++ rest.drop (width - 1) ∧ (encodeChar c).length = width := by
    intro b rest c width hnext
    have hlength := length_encodeChar_of_decodeNext hnext
    refine ⟨?_, hlength⟩
    rw [← take_of_decodeNext hnext, drop_pred (width_of_decodeNext hnext).1, List.take_append_drop]
  have hcons : ∀ (read : List Char) (c : Char),
      (c :: read).reverse.flatMap encodeChar = read.reverse.flatMap encodeChar ++ encodeChar c := by
    intro read c
    rw [List.reverse_cons, List.flatMap_append, List.flatMap_singleton]
  -- In each call, what was read and the bytes that are left make up the same bytes.
  fun_induction scanName true read size bytes with
  | case1 read size =>
    subst hsize
    exact isSpelled_closeKeyword base read []
  | case2 _ _ hended => exact absurd rfl hended
  | case3 => trivial
  | case4 => trivial
  | case5 read size b rest =>
    subst hsize
    exact isSpelled_closeKeyword base read (b :: rest)
  | case6 => trivial
  | case7 read size b rest width hnext =>
    obtain ⟨hbytes, hwidth⟩ := hchar hnext
    have hreverse : read.reverse.all fun c => isNameChar c || c = '.' := by
      rw [List.all_reverse]
      exact hread
    have hspelled := isSpelled_scanAfterColon base hreverse rest
    have hcolon : b :: rest = byte ':' :: rest.drop (width - 1) := hbytes
    obtain ⟨rfl, hrest⟩ := List.cons.inj hcolon
    rw [hsize]
    exact hspelled
  | case8 read size b rest c width hnext hc hempty hstart ih =>
    obtain ⟨hbytes, hwidth⟩ := hchar hnext
    obtain rfl := List.isEmpty_iff.1 hempty
    have hspelled := ih (by simp [isNameChar_of_isNameStart hstart]) (by simp [hwidth])
    rw [hcons, List.append_assoc, ← hbytes] at hspelled
    exact hspelled
  | case9 => trivial
  | case10 read size b rest c width hnext hc hempty hname ih =>
    obtain ⟨hbytes, hwidth⟩ := hchar hnext
    have hall : (c :: read).all fun c => isNameChar c || c = '.' := by
      rw [List.all_cons, hname, hread]
      rfl
    have hspelled := ih hall (by rw [hcons, List.length_append, hsize, hwidth])
    rw [hcons, List.append_assoc, ← hbytes] at hspelled
    exact hspelled
  | case11 read size b rest c width hnext hc hempty hname =>
    subst hsize
    exact isSpelled_closeKeyword base read (b :: rest)

/-- What starts with a quote is a string. -/
theorem yields_string_scanShort (quote : UInt8) (read : List Char) (size : Nat) (bytes : Bytes) :
    (scanShort quote read size bytes).Yields fun t => ∃ value, t = .string value := by
  have hfault : ∀ (cause : Token.Fault) (offset size : Nat) (bytes : Bytes),
      (faultToQuote quote cause offset size bytes).Yields fun t => ∃ value, t = Token.string value := by
    intro cause offset size bytes
    unfold faultToQuote
    split <;> trivial
  fun_induction scanShort quote read size bytes with
  | case1 => trivial
  | case2 => trivial
  | case3 => trivial
  | case4 => exact ⟨_, rfl⟩
  | case5 => trivial
  | case6 _ _ _ _ _ _ _ _ _ _ _ _ _ _ _ ih => exact ih
  | case7 => exact hfault _ _ _ _
  | case8 => exact hfault _ _ _ _

theorem yields_string_scanLong (quote : UInt8) (read : List Char) (size : Nat) (bytes : Bytes) :
    (scanLong quote read size bytes).Yields fun t => ∃ value, t = .string value := by
  fun_induction scanLong quote read size bytes with
  | case1 => trivial
  | case2 => trivial
  | case3 => trivial
  | case4 _ _ _ _ _ _ _ _ _ _ _ _ _ ih => exact ih
  | case5 => trivial
  | case6 => trivial
  | case7 => exact ⟨_, rfl⟩
  | case8 _ _ _ _ _ _ _ _ _ _ _ _ _ _ ih => exact ih

theorem exists_string_of_scanString {quote : UInt8} {bytes : Bytes} {t : Token} {n : Nat}
    (h : scanString quote bytes = .found t n) : ∃ value, t = .string value := by
  have hyields : (scanString quote bytes).Yields fun t => ∃ value, t = .string value := by
    unfold scanString
    split
    · trivial
    · split
      · split
        · trivial
        · split
          · exact yields_string_scanLong quote [] 3 _
          · exact yields_string_scanShort quote [] 1 _
      · exact yields_string_scanShort quote [] 1 _
  rw [h] at hyields
  exact hyields

theorem isSpelled_scanString (base : Option Iri) {quote : UInt8}
    (hquote : quote = byte '\x22' ∨ quote = byte '\x27') (bytes : Bytes) :
    (scanString quote bytes).IsSpelled base (quote :: bytes) := by
  cases hscan : scanString quote bytes with
  | wait | fault => trivial
  | found t n =>
    obtain ⟨value, rfl⟩ := exists_string_of_scanString hscan
    have hends := endsIn_scanString quote bytes
    rw [hscan] at hends
    obtain ⟨inside, rest, rfl, rfl⟩ := hends
    have hsplit : quote :: (inside ++ quote :: rest) = quote :: (inside ++ [quote]) ++ rest := by
      simp
    have hsize : 1 + inside.length + 1 = (quote :: (inside ++ [quote])).length := by
      simp only [List.length_cons, List.length_append, List.length_nil]
      omega
    rw [Scan.IsSpelled, hsplit, hsize, List.take_left, List.drop_left]
    refine .string hquote ?_
    rw [List.append_assoc, ← hsize]
    exact hscan

theorem isSpelled_scanIri (base : Option Iri) (bytes : Bytes) :
    (scanIri base bytes).IsSpelled base (byte '<' :: bytes) := by
  cases hscan : scanIri base bytes with
  | wait | fault => trivial
  | found t n =>
    obtain ⟨i, rfl⟩ : ∃ i, t = .iri i := by
      unfold scanIri at hscan
      dsimp only at hscan
      repeat' split at hscan
      all_goals cases hscan
      exact ⟨_, rfl⟩
    obtain ⟨inside, rest, rfl, rfl, hinside, -⟩ := of_scanIri hscan
    have hsplit : byte '<' :: (inside ++ byte '>' :: rest)
        = byte '<' :: (inside ++ [byte '>']) ++ rest := by
      simp
    have hsize : inside.length + 2 = (byte '<' :: (inside ++ [byte '>'])).length := by
      simp only [List.length_cons, List.length_append, List.length_nil]
    rw [Scan.IsSpelled, hsplit, hsize, List.take_left, List.drop_left]
    exact .iri hinside hscan

theorem isSpelled_scanAngle (base : Option Iri) (bytes : Bytes) :
    (scanAngle base bytes).IsSpelled base (byte '<' :: bytes) := by
  unfold scanAngle
  split
  · trivial
  · split
    · exact .other rfl (List.cons_ne_nil _ _)
    · exact isSpelled_scanIri base _

theorem isSpelled_scanLanguage (base : Option Iri) (bytes : Bytes) :
    (scanLanguage bytes).IsSpelled base (byte '@' :: bytes) := by
  unfold scanLanguage
  split
  · trivial
  · next b rest =>
    split
    · trivial
    · cases hlength : tagLength? false 0 (b :: rest) with
      | none => trivial
      | some length =>
        obtain ⟨cs, htake, -⟩ := exists_chars_of_tagLength? hlength
        rw [Nat.sub_zero] at htake
        dsimp only
        split
        · rw [Scan.IsSpelled, Nat.add_comm, List.take_succ_cons, htake, ← encode_ofList,
            decodeLossy_encode, encode_ofList]
          exact .language cs
        · trivial

/-- What is read is spelled by its bytes. -/
theorem isSpelled_scan (base : Option Iri) (b : UInt8) (rest : Bytes) :
    (scan base true b rest).IsSpelled base (b :: rest) := by
  unfold scan
  split
  · exact .other rfl (List.cons_ne_nil _ _)
  · split
    · exact (isOther_scanMark _ _ _ _).isSpelled base b rest
    · split
      · next hb =>
        subst hb
        exact isSpelled_scanAngle base rest
      · split
        · exact (isOther_scanUnderscore rest).isSpelled base b rest
        · split
          · next hb => exact isSpelled_scanString base (by simpa using hb) rest
          · split
            · next hb =>
              subst hb
              exact isSpelled_scanLanguage base rest
            · split
              · exact (isOther_scanDot true rest).isSpelled base b rest
              · split
                · exact (isOther_scanNumber true _).isSpelled base b rest
                · split
                  · exact (isOther_scanVariable true rest).isSpelled base b rest
                  · exact isSpelled_scanName base rfl rfl

/-! ## Passing tokens -/

/-- Whether a scan steps over a token as a whole. -/
def Token.isQuoted : Token → Bool
  | .iri _ | .string _ => true
  | _ => false

theorem Spells.ne_nil {base : Option Iri} {rest text : Bytes} {t : Token}
    (h : Spells base rest t text) (ht : t ≠ .keyword "") : text ≠ [] := by
  cases h with
  | iri | string | language => exact List.cons_ne_nil _ _
  | name => exact List.append_ne_nil_of_right_ne_nil _ (List.cons_ne_nil _ _)
  | other _ hne => exact hne
  | keyword word =>
    intro hnil
    cases word with
    | nil => exact ht rfl
    | cons c word =>
      obtain ⟨b, tail, hc⟩ := exists_encodeChar_eq_cons c
      rw [List.flatMap_cons, hc] at hnil
      cases hnil

/-- A scan passes what is a token for the parser, if the token is a string, an IRI or free of what
the scan would take for something else. -/
theorem finds_of_spells {base : Option Iri} {rest text : Bytes} {t : Token}
    (h : Spells base rest t text) (hne : text ≠ []) {mayStart : Bool}
    (hfree : t.isQuoted || isFree mayStart rest text) :
    finds mayStart (text ++ rest) = finds (mayPrecede text.getLast?) rest := by
  have hpass : isFree mayStart rest text →
      finds mayStart (text ++ rest) = finds (mayPrecede text.getLast?) rest := by
    intro hfree
    rw [finds_word hfree, mayFollow, List.getLast?_eq_some_getLast hne]
    rfl
  cases h with
  | iri hinside hscan =>
    rw [← List.cons_append, List.getLast?_concat, List.append_assoc]
    exact finds_angle hinside mayStart rest
  | string hquote hscan => exact finds_string hquote hscan mayStart
  | keyword | name | language => exact hpass hfree
  | other ht _ =>
    apply hpass
    cases t <;> first | exact hfree | cases ht

/-! ## The parts of a declaration -/

theorem lowerByte_of_le {b : UInt8} (hb : 0x80 ≤ b.toNat) : lowerByte b = b := by
  rw [lowerByte, if_neg]
  simp [UInt8.le_iff_toNat_le, byte]
  omega

/-- A letter is made small as a character or as a byte. -/
theorem map_lowerByte_encodeChar (c : Char) :
    (encodeChar c).map lowerByte = encodeChar c.toLower := by
  by_cases hc : c.toNat < 0x80
  · have hall : ∀ n < 0x80, (encodeChar (Char.ofNat n)).map lowerByte
        = encodeChar (Char.ofNat n).toLower := by
      decide +kernel
    have hchar := hall c.toNat hc
    rwa [Char.ofNat_toNat] at hchar
  · have hupper : ¬c.isUpper := by
      rw [isUpper_iff]
      omega
    have hid : (encodeChar c).map lowerByte = (encodeChar c).map id := by
      apply List.map_congr_left
      intro b hb
      exact lowerByte_of_le (le_of_mem_encodeChar (Nat.le_of_not_lt hc) hb)
    rw [hid, List.map_id, toLower_of_not_isUpper hupper]

theorem map_lowerByte_flatMap (cs : List Char) :
    (cs.flatMap encodeChar).map lowerByte = (cs.map Char.toLower).flatMap encodeChar := by
  rw [List.map_flatMap, List.flatMap_map]
  congr 1
  funext c
  exact map_lowerByte_encodeChar c

/-- The parser and the scan know the same keywords. -/
theorem isKeyword_of_spells {base : Option Iri} {rest text : Bytes} {t : Token}
    (h : Spells base rest t text) (ht : t.declares) : isKeyword text := by
  rw [isKeyword, Bool.or_eq_true, decide_eq_true_eq, decide_eq_true_eq]
  cases h with
  | iri | string | name => cases ht
  | other hother _ => cases t <;> first | cases ht | cases hother
  | language tag =>
    have htag : String.ofList tag = "prefix" := of_decide_eq_true ht
    left
    rw [← encode_ofList, htag]
  | keyword word =>
    have hword : lowercase (.ofList word) = "prefix" := of_decide_eq_true ht
    right
    rw [map_lowerByte_flatMap, ← encode_ofList, ← hword, lowercase, String.toList_ofList]

/-- A local name that was begun is not empty, as dots are given back only after other characters. -/
theorem size_of_scanLocal {draft : LocalName.Draft} {bytes : Bytes} {isDoubtful : Bool} {n : Nat}
    (h : scanLocal false draft bytes = .found ⟨"", isDoubtful⟩ n)
    (hdraft : draft = .empty ∨ draft.dots < draft.read.length) : n = 0 := by
  have hadd : ∀ (draft : LocalName.Draft) (c : Char) (cs : List Char) (isDoubtful : Bool)
      (width : Nat), (draft.add (c :: cs) isDoubtful width).dots
        < (draft.add (c :: cs) isDoubtful width).read.length := by
    intro draft c cs isDoubtful width
    simp only [LocalName.Draft.add, List.length_append, List.length_reverse, List.length_cons]
    omega
  -- From the first character on, more was read than is given back.
  fun_induction scanLocal false draft bytes with
  | case1 _ hended => cases hended
  | case2 => cases h
  | case3 draft _ _ _ digits _ ih => exact ih h (.inr (hadd draft _ _ _ _))
  | case4 => cases h
  | case5 => cases h
  | case6 draft e rest c _ _ ih => exact ih h (.inr (hadd draft c [] false 2))
  | case7 draft e rest c _ _ _ ih => exact ih h (.inr (hadd draft c [] true 2))
  | case8 => cases h
  | case9 => cases h
  | case10 _ _ _ _ _ _ hended => cases hended
  | case11 => cases h
  | case12 => cases h
  | case13 draft b rest _ _ c width _ _ ih => exact ih h (.inr (hadd draft c [] _ _))
  | case14 draft b rest _ _ c width _ _ hdot ih =>
    refine ih h (.inr ?_)
    have hlt : draft.dots < draft.read.length := by
      rcases hdraft with rfl | hlt
      · simp [LocalName.Draft.empty] at hdot
      · exact hlt
    exact Nat.succ_lt_succ hlt
  | case15 draft =>
    unfold LocalName.Draft.close at h
    obtain ⟨hname, rfl⟩ := Scan.found.inj h
    rcases hdraft with rfl | hlt
    · rfl
    · have hlength := congrArg (fun name => name.text.toList.length) hname
      simp only [String.toList_ofList, List.length_reverse, List.length_drop, String.toList_empty,
        List.length_nil] at hlength
      omega

/-- A name without a local part ends with its colon, if more follows. -/
theorem text_of_spells_name {base : Option Iri} {rest text : Bytes} {space : String}
    {isDoubtful : Bool} (h : Spells base rest (.name space "" isDoubtful) text)
    (hrest : HasAngle rest) :
    ∃ name, text = name ++ [byte ':'] ∧ name.all isNameByte ∧ decodeLossy name = space := by
  cases h with
  | other ht _ => cases ht
  | @name space _ _ inside hspace hscan =>
    have hempty : inside = [] := by
      -- Bytes may be read for an empty name where the document ends, but not in front of a bracket.
      apply List.eq_nil_of_length_eq_zero
      have hkept := isKept_scanLocal true .empty (inside ++ rest) []
      rw [List.append_nil, hscan] at hkept
      have hfound := hkept.resolve_left (scanLocal_ne_wait .empty (hasAngle_append hrest inside))
      exact size_of_scanLocal hfound.symm (.inl rfl)
    refine ⟨space.flatMap encodeChar, by rw [hempty], ?_, ?_⟩
    · exact all_isNameByte_flatMap hspace
    · rw [← encode_ofList, decodeLossy_encode]

/-- An IRI that brings its own scheme and has no escapes is read as it is written. -/
theorem scheme?_of_hasScheme {text : String} (h : hasScheme text) :
    ∃ scheme rest, Iri.scheme? text.toList = some (scheme, rest) := by
  rw [hasScheme, Bool.and_eq_true, Bool.and_eq_true, decide_eq_true_eq] at h
  obtain ⟨⟨hlength, hall⟩, halpha⟩ := h
  generalize text.toList = cs at hlength hall halpha
  have hwhole := List.takeWhile_append_dropWhile (p := (· ≠ ':')) (l := cs)
  cases hdrop : cs.dropWhile (· ≠ ':') with
  | nil =>
    rw [hdrop, List.append_nil] at hwhole
    rw [hwhole] at hlength
    exact absurd hlength (Nat.lt_irrefl _)
  | cons c rest =>
    have hc : c = ':' := by
      have hhead := List.head?_dropWhile_not (· ≠ ':') cs
      rw [hdrop] at hhead
      simpa using hhead
    subst hc
    rw [hdrop] at hwhole
    generalize cs.takeWhile (· ≠ ':') = scheme at hall halpha hwhole
    subst hwhole
    cases scheme with
    | nil => cases halpha
    | cons first scheme =>
      have hrest : (first :: scheme ++ ':' :: rest).dropWhile Iri.isSchemeChar = ':' :: rest := by
        rw [List.dropWhile_append_of_pos (List.all_eq_true.1 hall),
          List.dropWhile_cons_of_neg (by decide)]
      refine ⟨(first :: scheme ++ ':' :: rest).takeWhile Iri.isSchemeChar, rest, ?_⟩
      have hfirst : first.isAlpha := halpha
      unfold Iri.scheme?
      rw [List.cons_append] at hrest ⊢
      dsimp only
      rw [if_pos hfirst, hrest]
      rfl

theorem text_of_spells_iri {base : Option Iri} {rest text : Bytes} {i : Iri}
    (h : Spells base rest (.iri i) text) :
    ∃ inside, text = byte '<' :: (inside ++ [byte '>']) ∧ inside.all isIriByte
      ∧ (hasScheme (decodeLossy inside) → byte '\\' ∉ inside → i.text = decodeLossy inside) := by
  cases h with
  | other ht _ => cases ht
  | @iri _ inside hinside hscan =>
    refine ⟨inside, rfl, hinside, fun hscheme hescape => ?_⟩
    have hclose : byte '>' ∉ inside := fun hmem =>
      absurd (List.all_eq_true.1 hinside _ hmem) (by decide)
    unfold scanIri at hscan
    rw [scanIriText_plain hclose hescape, List.reverse_nil, List.nil_append] at hscan
    dsimp only at hscan
    split at hscan
    · cases hscan
    · obtain ⟨scheme, later, hread⟩ := scheme?_of_hasScheme hscheme
      split at hscan
      · next hi =>
        obtain rfl := (Token.iri.inj (Scan.found.inj hscan).1).symm
        have hchars : i.chars = (decodeLossy inside).toList := by
          have heq := (Iri.of_scheme? hread).1
          cases base with
          | none => exact Iri.chars_of_ofChars hi
          | some base =>
            dsimp only [Option.elim_some, Iri.resolve, Iri.resolveChars] at hi
            rw [hread] at hi
            rw [(Iri.of_readAfterScheme hi).1, heq]
        rw [Iri.text, hchars, String.ofList_toList]
      · cases hscan

/-! ## Passing blanks and comments -/

/-- Whether a scan is in a comment behind some bytes. Its comments go on up to a line feed. -/
def endsInComment (inComment : Bool) : Bytes → Bool
  | [] => inComment
  | b :: rest => endsInComment (b ≠ byte '\n' && (inComment || b = byte '#')) rest

/-- Whether some bytes are blanks and comments for a scan. -/
def isSpacing (inComment : Bool) : Bytes → Bool
  | [] => true
  | b :: rest =>
    (inComment || isBlank b || b = byte '#')
      && isSpacing (b ≠ byte '\n' && (inComment || b = byte '#')) rest

/-- The parser skips nothing that is no spacing for a scan. A comment may be longer for the scan, as
a carriage return does not end it. -/
theorem exists_spacing_of_skipBlank {ended inComment : Bool} {c c' : Cursor} {bytes rest : Bytes}
    (h : c.skipBlank ended inComment bytes = some (c', rest)) :
    ∃ gap, bytes = gap ++ rest
      ∧ ∀ inComment' : Bool, (inComment → inComment') → isSpacing inComment' gap := by
  -- The scan is in a comment wherever the parser is, and maybe longer.
  fun_induction Cursor.skipBlank ended inComment c bytes with
  | case1 => cases h
  | case2 =>
    cases h
    exact ⟨[], rfl, fun _ _ => rfl⟩
  | case3 inComment c later ih =>
    obtain ⟨gap, rfl, hgap⟩ := ih h
    refine ⟨byte '\n' :: gap, rfl, fun inComment' _ => ?_⟩
    rw [isSpacing, hgap _ (by simp)]
    simp [isBlank]
  | case4 inComment c =>
    cases h
    refine ⟨[byte '\r'], rfl, fun inComment' _ => ?_⟩
    simp [isSpacing, isBlank]
  | case5 => cases h
  | case6 inComment c later _ ih =>
    obtain ⟨gap, rfl, hgap⟩ := ih h
    refine ⟨byte '\r' :: byte '\n' :: gap, rfl, fun inComment' _ => ?_⟩
    rw [isSpacing, isSpacing, hgap _ (by simp)]
    simp [isBlank]
  | case7 inComment c b later hfeed _ ih =>
    obtain ⟨gap, hbytes, hgap⟩ := ih h
    refine ⟨byte '\r' :: gap, by rw [hbytes, List.cons_append], fun inComment' _ => ?_⟩
    rw [isSpacing, hgap _ (by simp)]
    simp [isBlank]
  | case8 inComment c b later hfeed hreturn hblank ih =>
    obtain ⟨gap, rfl, hgap⟩ := ih h
    refine ⟨b :: gap, rfl, fun inComment' himp => ?_⟩
    rw [Bool.or_eq_true, Bool.or_eq_true, decide_eq_true_eq, decide_eq_true_eq] at hblank
    rw [isSpacing, hgap _ (fun h => by simp [hfeed, himp h])]
    rcases hblank with (hcomment | rfl) | rfl
    · rw [himp hcomment]
      rfl
    · simp [isBlank]
    · simp [isBlank]
  | case9 inComment c later _ _ _ ih =>
    obtain ⟨gap, rfl, hgap⟩ := ih h
    refine ⟨byte '#' :: gap, rfl, fun inComment' _ => ?_⟩
    rw [isSpacing, hgap _ (fun _ => by simp [byte])]
    simp
  | case10 =>
    cases h
    exact ⟨[], rfl, fun _ _ => rfl⟩

/-- A comment goes on up to the end, or a line feed ends it. -/
theorem comment_cases (bytes : Bytes) :
    ((bytes.all fun b => b ≠ byte '\n') ∧ endsInComment true bytes)
      ∨ ∃ inside later, bytes = inside ++ byte '\n' :: later ∧ (inside.all fun b => b ≠ byte '\n')
        ∧ endsInComment true bytes = endsInComment false later
        ∧ isSpacing true bytes = isSpacing false later := by
  induction bytes with
  | nil => exact .inl ⟨rfl, rfl⟩
  | cons b bytes ih =>
    by_cases hb : b = byte '\n'
    · subst hb
      exact .inr ⟨[], bytes, rfl, rfl, by simp [endsInComment], by simp [isSpacing]⟩
    · have hends : endsInComment true (b :: bytes) = endsInComment true bytes := by
        simp [endsInComment, hb]
      have hspacing : isSpacing true (b :: bytes) = isSpacing true bytes := by
        simp [isSpacing, hb]
      have hall : ∀ inside : Bytes, (inside.all fun b => b ≠ byte '\n') →
          (b :: inside).all fun b => b ≠ byte '\n' := by
        intro inside hinside
        rw [List.all_cons, hinside, Bool.and_true, decide_eq_true hb]
      rw [hends, hspacing]
      exact ih.imp (.imp_left (hall bytes)) fun ⟨inside, later, hbytes, hinside, hlater⟩ =>
        ⟨b :: inside, later, by rw [hbytes, List.cons_append], hall inside hinside, hlater⟩

theorem mayFollow_append (mayStart : Bool) (front back : Bytes) :
    mayFollow mayStart (front ++ back) = mayFollow (mayFollow mayStart front) back := by
  induction front generalizing mayStart with
  | nil => rfl
  | cons b front ih => rw [List.cons_append, mayFollow_cons, mayFollow_cons, ih]

/-- Where a scan looks for a directive behind blanks and comments. -/
theorem mayFollow_mayPrecede (last : Option UInt8) (gap : Bytes) :
    mayFollow (mayPrecede last) gap = mayPrecede (gap.getLast?.or last) := by
  unfold mayFollow
  cases gap.getLast? <;> rfl

/-- A comment is passed with the line feed that ends it. -/
theorem finds_comment {inside : Bytes} (hinside : inside.all fun b => b ≠ byte '\n')
    (mayStart : Bool) (rest : Bytes) :
    finds mayStart (byte '#' :: (inside ++ [byte '\n']) ++ rest) = finds true rest := by
  have hall : (byte '#' :: inside).all fun b => !decide (b = byte '\n') := by
    rw [List.all_cons, Bool.and_eq_true]
    refine ⟨by decide, ?_⟩
    simpa using hinside
  rw [finds_stride, ← List.cons_append, List.getLast?_concat]
  · rfl
  · intro _
    exact parts?_eq_none (by decide) (by decide) _
  · rw [stride, if_pos rfl, commentLength, List.append_assoc, List.singleton_append,
      ← List.cons_append, lengthThrough_append hall (by decide), ← List.cons_append,
      List.length_append]
    rfl

/-- A comment at the end hides nothing. -/
theorem finds_open_comment {inside : Bytes} (hinside : inside.all fun b => b ≠ byte '\n')
    (mayStart : Bool) : finds mayStart (byte '#' :: inside) = [] := by
  have hnone : (byte '#' :: inside).findIdx? (· = byte '\n') = none := by
    rw [List.findIdx?_eq_none_iff, List.forall_mem_cons]
    refine ⟨by decide, ?_⟩
    simpa using hinside
  rw [← List.append_nil (byte '#' :: inside), finds_stride, finds_nil]
  · intro _
    exact parts?_eq_none (by decide) (by decide) _
  · rw [stride, if_pos rfl, commentLength, List.append_nil, lengthThrough, hnone]

/-- Spacing is passed, unless a comment swallows what follows it. -/
theorem finds_spacing {gap rest : Bytes} (hgap : isSpacing false gap)
    (hends : endsInComment false gap = false ∨ rest = []) (mayStart : Bool) :
    finds mayStart (gap ++ rest) = finds (mayFollow mayStart gap) rest := by
  -- Each step passes a blank, or a comment with its line feed.
  induction hn : gap.length using Nat.strongRecOn generalizing gap mayStart with
  | _ n ih =>
    cases gap with
    | nil => rfl
    | cons b gap =>
      rw [isSpacing, Bool.and_eq_true] at hgap
      rw [endsInComment] at hends
      by_cases hb : b = byte '#'
      · subst hb
        rcases comment_cases gap with ⟨hall, hopen⟩ | ⟨inside, later, rfl, hinside, hlater, hspacing⟩
        · have hrest : rest = [] := hends.resolve_left (Bool.eq_false_iff.1 · hopen)
          rw [hrest, List.append_nil, finds_open_comment hall, finds_nil]
        · have hsplit : byte '#' :: (inside ++ byte '\n' :: later)
              = byte '#' :: (inside ++ [byte '\n']) ++ later := by
            simp
          have hstart : mayFollow mayStart (byte '#' :: (inside ++ [byte '\n'])) = true := by
            rw [← List.cons_append, mayFollow_append]
            rfl
          rw [hsplit, mayFollow_append, hstart, List.append_assoc, finds_comment hinside]
          exact ih later.length (by simp [← hn]; omega) (hspacing ▸ hgap.2)
            (hends.imp_left hlater.symm.trans) true rfl
      · have hblank : isBlank b := by simpa [hb] using hgap.1
        obtain ⟨hplain, hp, hat, -⟩ := of_isDot (b := b) (by simp [hblank])
        rw [List.cons_append, finds_byte hplain fun _ => parts?_eq_none hp hat _, mayFollow_cons]
        have hclosed : (decide (b ≠ byte '\n') && (false || decide (b = byte '#'))) = false := by
          simp [hb]
        rw [hclosed] at hends hgap
        exact ih gap.length (by simp [← hn]) hgap.2 hends _ rfl

end TidyTrig.Trig
