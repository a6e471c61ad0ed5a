import TidyTrig.Proofs.LanguageTag
import TidyTrig.Proofs.Trig.Names
import TidyTrig.Proofs.Trig.Quoted
import TidyTrig.Proofs.Trig.Reading

/-!
# Words

`Lexes base word t follows` says that some bytes are read as the token `t` in front of any byte of
a kind. The writer puts a space or a line end after most words; a string may also stand right
before its tag or datatype. There is one lemma for each kind of word that the writer writes.
-/

namespace TidyTrig.Trig

open Utf8

/-- The bytes that the writer puts between words. -/
def IsGap (c : UInt8) : Prop := c = byte ' ' ∨ c = byte '\n'

/-- Some bytes are read as one token, in front of any byte of this kind. -/
def Lexes (base : Option Iri) (word : Bytes) (t : Token) (follows : UInt8 → Prop) : Prop :=
  ∃ b tail, word = b :: tail ∧ opensToken b ∧
    ∀ c rest, follows c → scan base true b (tail ++ c :: rest) = .found t word.length

/-- A word is read by what its token does. -/
theorem Lexes.reads {r : Recognition} {word : Bytes} {t : Token} {follows : UInt8 → Prop}
    (h : Lexes r.base word t follows) (labels : Nat → String)
    (hfaults : (r.accept labels t).faults = []) {c : UInt8} (hc : follows c) (rest : Bytes) :
    Reads labels r (word ++ c :: rest) (r.accept labels t).statements (r.accept labels t).cleared
      (c :: rest) := by
  obtain ⟨b, tail, rfl, hopens, hscan⟩ := h
  have hlater : Reads labels (r.accept labels t).cleared
      ((tail ++ c :: rest).drop ((b :: tail).length - 1)) [] (r.accept labels t).cleared
      (c :: rest) := by
    rw [List.length_cons, Nat.add_sub_cancel, List.drop_left]
    exact .blanks (Skips.refl _)
  have hread := Reads.token (Skips.refl _) hopens (hscan c rest hc) hfaults hlater
  rw [List.append_nil] at hread
  exact hread

/-! ## Which scanner reads a word -/

/-- Whether names alone start with this byte. -/
def opensName (b : UInt8) : Bool :=
  b = byte ':' || (byte 'a' ≤ b && b ≤ byte 'z') || (byte 'A' ≤ b && b ≤ byte 'Z') || 0x80 ≤ b

theorem forall_byte {p : UInt8 → Prop} (h : ∀ n < 256, p (.ofNat n)) (b : UInt8) : p b := by
  have hb := h b.toNat b.toNat_lt
  rw [UInt8.ofNat_toNat] at hb
  exact hb

theorem opensName_spec (b : UInt8) (h : opensName b) :
    singleMark? b = none ∧ doubleMark? b = none ∧ opensToken b
      ∧ b ≠ byte '<' ∧ b ≠ byte '_' ∧ b ≠ byte '\x22' ∧ b ≠ byte '\x27' ∧ b ≠ byte '@'
      ∧ b ≠ byte '.' ∧ (isDigitByte b || isSignByte b) = false ∧ b ≠ byte '?' := by
  revert h
  revert b
  apply forall_byte
  decide +kernel

/-- The scanner that reads what starts with a byte that is no mark. -/
theorem scan_of_noMark {b : UInt8} (hsingle : singleMark? b = none) (hdouble : doubleMark? b = none)
    (base : Option Iri) (ended : Bool) (rest : Bytes) :
    scan base ended b rest =
      if b = byte '<' then scanAngle base rest
      else if b = byte '_' then scanUnderscore rest
      else if b = byte '\x22' || b = byte '\x27' then scanString b rest
      else if b = byte '@' then scanLanguage rest
      else if b = byte '.' then scanDot ended rest
      else if isDigitByte b || isSignByte b then scanNumber ended (b :: rest)
      else if b = byte '?' then scanVariable ended rest
      else scanName ended [] 0 (b :: rest) := by
  rw [scan, hsingle]
  dsimp only
  rw [hdouble]

theorem scan_of_opensName {b : UInt8} (h : opensName b) (base : Option Iri) (ended : Bool)
    (rest : Bytes) : scan base ended b rest = scanName ended [] 0 (b :: rest) := by
  obtain ⟨hsingle, hdouble, -, hless, hunderscore, hquote, hquote', hat, hdot, hnumber, hvariable⟩ :=
    opensName_spec b h
  rw [scan_of_noMark hsingle hdouble, if_neg hless, if_neg hunderscore,
    if_neg (by simp [hquote, hquote']), if_neg hat, if_neg hdot, hnumber,
    if_neg Bool.false_ne_true, if_neg hvariable]

theorem scan_less (base : Option Iri) (ended : Bool) (rest : Bytes) :
    scan base ended (byte '<') rest = scanAngle base rest := by
  rw [scan_of_noMark (by decide) (by decide), if_pos rfl]

theorem scan_underscore (base : Option Iri) (ended : Bool) (rest : Bytes) :
    scan base ended (byte '_') rest = scanUnderscore rest := by
  rw [scan_of_noMark (by decide) (by decide), if_neg (by decide), if_pos rfl]

theorem scan_quote (base : Option Iri) (ended : Bool) (rest : Bytes) :
    scan base ended (byte '\x22') rest = scanString (byte '\x22') rest := by
  rw [scan_of_noMark (by decide) (by decide), if_neg (by decide), if_neg (by decide),
    if_pos (by decide)]

theorem scan_at (base : Option Iri) (ended : Bool) (rest : Bytes) :
    scan base ended (byte '@') rest = scanLanguage rest := by
  rw [scan_of_noMark (by decide) (by decide), if_neg (by decide), if_neg (by decide),
    if_neg (by decide), if_pos rfl]

theorem scan_dot (base : Option Iri) (ended : Bool) (rest : Bytes) :
    scan base ended (byte '.') rest = scanDot ended rest := by
  rw [scan_of_noMark (by decide) (by decide), if_neg (by decide), if_neg (by decide),
    if_neg (by decide), if_neg (by decide), if_pos rfl]

/-! ## Marks -/

theorem lexes_singleMark (base : Option Iri) {b : UInt8} {mark : Mark}
    (h : singleMark? b = some mark) (hopens : opensToken b) (follows : UInt8 → Prop) :
    Lexes base [b] (.mark mark) follows := by
  refine ⟨b, [], rfl, hopens, ?_⟩
  intro c rest _
  rw [scan, h]
  rfl

theorem lexes_dot (base : Option Iri) : Lexes base [byte '.'] (.mark .dot) IsGap := by
  refine ⟨byte '.', [], rfl, by decide, ?_⟩
  intro c rest hc
  have hdigit : isDigitByte c = false := by
    rcases hc with rfl | rfl
    · decide
    · decide
  rw [List.nil_append, scan_dot, scanDot, hdigit]
  rfl

theorem lexes_openBrace (base : Option Iri) :
    Lexes base [byte '\x7b'] (.mark .openBrace) IsGap := by
  refine ⟨byte '\x7b', [], rfl, by decide, ?_⟩
  intro c rest hc
  have hsingle : singleMark? (byte '\x7b') = none := by decide
  have hdouble : doubleMark? (byte '\x7b') = some (byte '|', .openBraceBar, .openBrace) := by decide
  have hbar : c ≠ byte '|' := by
    rcases hc with rfl | rfl
    · decide
    · decide
  rw [scan, hsingle]
  dsimp only
  rw [hdouble]
  dsimp only
  rw [List.nil_append, scanMark, if_neg hbar]
  rfl

/-- The mark between a string and its datatype. -/
theorem lexes_caret2 (base : Option Iri) (follows : UInt8 → Prop) :
    Lexes base [byte '^', byte '^'] (.mark .caret2) follows := by
  refine ⟨byte '^', [byte '^'], rfl, by decide, ?_⟩
  intro c rest _
  have hsingle : singleMark? (byte '^') = none := by decide
  have hdouble : doubleMark? (byte '^') = some (byte '^', .caret2, .caret) := by decide
  rw [scan, hsingle]
  dsimp only
  rw [hdouble]
  dsimp only
  rw [List.singleton_append, scanMark, if_pos rfl]
  rfl

/-! ## IRIs, strings and tags -/

theorem lexes_iri {base : Option Iri} {text : String} {i : Iri} (h : ReadsAs base text i)
    (follows : UInt8 → Prop) : Lexes base (encode ("<" ++ text ++ ">")) (.iri i) follows := by
  have hword : encode ("<" ++ text ++ ">") = byte '<' :: (encode text ++ [byte '>']) := by
    rw [encode_append, encode_append]
    rfl
  refine ⟨byte '<', encode text ++ [byte '>'], hword, by decide, ?_⟩
  intro c rest _
  rw [scan_less, List.append_assoc, List.singleton_append, h, hword, List.length_cons,
    List.length_append]
  rfl

theorem lexes_quoted (base : Option Iri) (text : String) :
    Lexes base (encode (quoted text)) (.string text) (· ≠ byte '\x22') := by
  refine ⟨byte '\x22', _, encode_quoted text, by decide, ?_⟩
  intro c rest hc
  rw [scan_quote, List.append_assoc, List.singleton_append, scanString_quoted _ hc,
    encode_quoted, String.ofList_toList, List.length_cons, List.length_append]
  rfl

/-- The blocks of a tag are passed up to what is no part of them. -/
theorem tagLength?_hasBlocks {cs : List Char} {inEmptyBlock : Bool}
    (hblocks : LanguageTag.hasBlocks inEmptyBlock cs) (count : Nat) {c : UInt8} (hc : IsGap c)
    (rest : Bytes) :
    tagLength? inEmptyBlock count (cs.flatMap encodeChar ++ c :: rest)
      = some (count + (cs.flatMap encodeChar).length) := by
  have hgap : (Char.ofNat c.toNat).isAlpha = false ∧ c ≠ byte '-' := by
    rcases hc with rfl | rfl
    · decide
    · decide
  induction cs generalizing inEmptyBlock count with
  | nil =>
    rw [LanguageTag.hasBlocks, Bool.not_eq_true'] at hblocks
    rw [List.flatMap_nil, List.nil_append, tagLength?, hgap.1, hblocks, if_neg Bool.false_ne_true,
      if_neg Bool.false_ne_true, if_neg hgap.2]
    rfl
  | cons d cs ih =>
    rw [LanguageTag.hasBlocks] at hblocks
    by_cases hd : d = '-'
    · rw [if_pos hd, Bool.and_eq_true, Bool.not_eq_true'] at hblocks
      have hchar : encodeChar d = [byte '-'] := by
        rw [hd]
        rfl
      rw [List.flatMap_cons, hchar, List.append_assoc, List.singleton_append, tagLength?,
        if_neg (by decide), hblocks.1, if_neg Bool.false_ne_true, if_pos rfl, ih hblocks.2,
        List.length_append, List.length_singleton, Nat.add_assoc]
    · rw [if_neg hd, Bool.and_eq_true] at hblocks
      have hlt : d.toNat < 0x80 := by
        apply lt_of_isPlainNameChar
        simp [isPlainNameChar, Char.isAlphanum, hblocks.1]
      rw [List.flatMap_cons, encodeChar_ascii hlt, List.append_assoc, List.singleton_append,
        tagLength?, toNat_byte hlt, Char.ofNat_toNat, if_pos hblocks.1, ih hblocks.2,
        List.length_append, List.length_singleton, Nat.add_assoc]

/-- A letter is known from its byte. -/
theorem encodeChar_of_isAlpha {c : Char} (h : c.isAlpha) :
    encodeChar c = [byte c] ∧ Char.ofNat (byte c).toNat = c := by
  have hlt : c.toNat < 0x80 := by
    apply lt_of_isPlainNameChar
    simp [isPlainNameChar, Char.isAlphanum, h]
  refine ⟨encodeChar_ascii hlt, ?_⟩
  rw [toNat_byte hlt, Char.ofNat_toNat]

theorem lexes_language (base : Option Iri) {tag : String} (h : LanguageTag.isTag tag) :
    Lexes base (encode ("@" ++ tag)) (.language tag) IsGap := by
  have hword : encode ("@" ++ tag) = byte '@' :: encode tag := by
    rw [encode_append]
    rfl
  refine ⟨byte '@', encode tag, hword, by decide, ?_⟩
  intro c rest hc
  have hblocks := LanguageTag.hasBlocks_of_isTag h
  cases htag : tag.toList with
  | nil =>
    rw [htag] at hblocks
    cases hblocks
  | cons d ds =>
    rw [htag, LanguageTag.hasBlocks] at hblocks
    have hd : d ≠ '-' := by
      rintro rfl
      rw [if_pos rfl] at hblocks
      cases hblocks
    rw [if_neg hd, Bool.and_eq_true] at hblocks
    obtain ⟨hchar, hback⟩ := encodeChar_of_isAlpha hblocks.1
    have hfirst : encode tag = byte d :: ds.flatMap encodeChar := by
      rw [encode, htag, List.flatMap_cons, hchar, List.singleton_append]
    have hlength : tagLength? false 0 (encode tag ++ c :: rest) = some (encode tag).length := by
      have hall : LanguageTag.hasBlocks false tag.toList := by
        rw [htag, LanguageTag.hasBlocks, if_neg hd, hblocks.1, hblocks.2]
        rfl
      rw [encode, tagLength?_hasBlocks hall 0 hc, Nat.zero_add]
    rw [scan_at, hword, hfirst, List.cons_append, scanLanguage, hback, hblocks.1, ← List.cons_append,
      ← hfirst, hlength]
    dsimp only
    rw [Bool.not_true, if_neg Bool.false_ne_true, List.take_left, decodeLossy_encode,
      LanguageTag.check_of_isTag h]
    dsimp only
    rw [List.length_cons, Nat.add_comm]

/-! ## Names and labels -/

theorem encodeChar_of_isGap {c : UInt8} (hc : IsGap c) :
    ∃ e : Char, endsName e ∧ ∀ rest, c :: rest = encodeChar e ++ rest := by
  rcases hc with rfl | rfl
  · exact ⟨' ', by decide, fun _ => rfl⟩
  · exact ⟨'\n', by decide, fun _ => rfl⟩

/-- The first byte of a prefix name is one that starts names alone. -/
theorem opensName_of_isNameStart {c : Char} (h : isNameStart c) {b : UInt8} {tail : Bytes}
    (hc : encodeChar c = b :: tail) : opensName b := by
  by_cases hlt : c.toNat < 0x80
  · have halpha : c.isAlpha := by
      simp only [isNameStart, Bool.or_eq_true, Bool.and_eq_true, decide_eq_true_eq] at h
      by_cases halpha : c.isAlpha
      · exact halpha
      · simp only [halpha, Bool.false_eq_true, false_or] at h
        omega
    rw [encodeChar_ascii hlt] at hc
    cases hc
    rw [isAlpha_iff] at halpha
    simp only [opensName, Bool.or_eq_true, Bool.and_eq_true, decide_eq_true_eq,
      UInt8.le_iff_toNat_le, toNat_byte hlt]
    have ha : (byte 'a').toNat = 97 := rfl
    have hz : (byte 'z').toNat = 122 := rfl
    have hA : (byte 'A').toNat = 65 := rfl
    have hZ : (byte 'Z').toNat = 90 := rfl
    omega
  · have hb : 0x80 ≤ b.toNat := by
      apply le_of_mem_encodeChar (c := c) (by omega)
      rw [hc]
      exact List.mem_cons_self
    simp only [opensName, Bool.or_eq_true, decide_eq_true_eq, UInt8.le_iff_toNat_le]
    exact .inr hb

theorem lexes_name (base : Option Iri) {name localPart : List Char} (hname : isPrefixName name)
    (hlocal : isPlainName localPart) :
    Lexes base (encode (.ofList name ++ ":" ++ .ofList localPart))
      (.name (.ofList name) (.ofList localPart) false) IsGap := by
  have hword : encode (.ofList name ++ ":" ++ .ofList localPart)
      = name.flatMap encodeChar ++ byte ':' :: localPart.flatMap encodeChar := by
    rw [encode_append, encode_append, encode_ofList name, encode_ofList localPart,
      List.append_assoc]
    rfl
  have hopens : ∃ b tail, encode (.ofList name ++ ":" ++ .ofList localPart) = b :: tail
      ∧ opensName b := by
    rw [hword]
    cases name with
    | nil => exact ⟨byte ':', _, rfl, by decide⟩
    | cons c cs =>
      simp only [isPrefixName, Bool.and_eq_true] at hname
      obtain ⟨b, tail, hc⟩ := exists_encodeChar_eq_cons c
      rw [List.flatMap_cons, hc]
      exact ⟨b, _, rfl, opensName_of_isNameStart hname.1.1 hc⟩
  obtain ⟨b, tail, hcons, hb⟩ := hopens
  refine ⟨b, tail, hcons, (opensName_spec b hb).2.2.1, ?_⟩
  intro c rest hc
  obtain ⟨e, he, hgap⟩ := encodeChar_of_isGap hc
  rw [scan_of_opensName hb, ← List.cons_append, ← hcons, hword, List.append_assoc,
    List.cons_append, scanName_prefixName true hname, scanAfterColon,
    if_neg (getLast?_ne_of_isPrefixName hname), hgap rest, scanLocal_plainName true hlocal he]
  dsimp only
  rw [List.length_append, List.length_cons]
  congr 1
  omega

theorem lexes_label (base : Option Iri) {label : List Char} (h : isLabel label) :
    Lexes base (encode ("_:" ++ .ofList label)) (.blank (.ofList label)) IsGap := by
  have hword : encode ("_:" ++ .ofList label)
      = byte '_' :: byte ':' :: label.flatMap encodeChar := by
    rw [encode_append, encode_ofList label]
    rfl
  refine ⟨byte '_', _, hword, by decide, ?_⟩
  intro c rest hc
  obtain ⟨e, he, hgap⟩ := encodeChar_of_isGap hc
  rw [scan_underscore, List.cons_append, scanUnderscore, if_pos rfl, hgap rest,
    scanLabel_label h he, hword, List.length_cons, List.length_cons, Nat.add_comm]

/-- The keyword for the class of a resource. -/
theorem lexes_a (base : Option Iri) : Lexes base (encode "a") (.keyword "a") IsGap := by
  have hword : encode "a" = [byte 'a'] := rfl
  refine ⟨byte 'a', [], hword, by decide, ?_⟩
  intro c rest hc
  obtain ⟨e, he, hgap⟩ := encodeChar_of_isGap hc
  simp only [endsName, Bool.not_eq_true', Bool.or_eq_false_iff, decide_eq_false_iff_not] at he
  have hletter : byte 'a' :: (encodeChar e ++ rest) = encodeChar 'a' ++ (encodeChar e ++ rest) := rfl
  rw [List.nil_append, scan_of_opensName (by decide), hgap rest, hletter, scanName_encodeChar,
    if_neg (by decide), List.isEmpty_nil, if_pos rfl, if_pos (by decide), scanName_encodeChar,
    if_neg he.1.1.1.2, if_neg (by decide), if_neg (by simp [he.1.1.1.1, he.1.1.2]), hword]
  rfl

end TidyTrig.Trig
