import TidyTrig.Proofs.Iri.Reading
import TidyTrig.Proofs.Trig.Lookahead
import TidyTrig.Trig.Spelling

/-!
# Words in quotes and brackets are read as they are spelled

An IRI between angle brackets is read as itself, since none of its characters ends it or is an
escape. A string is spelled with escapes, and the scanner is followed along it a character at a
time: either the character is plain and goes on with a stretch, or its escape starts a new one.
-/

namespace TidyTrig.Trig

open Utf8

/-! ## IRIs -/

/-- Bytes without marks of their own are passed up to the closing bracket. -/
theorem scanIriText_plain {bytes : Bytes} (hclose : byte '>' ∉ bytes) (hescape : byte '\\' ∉ bytes)
    (read : Bytes) (size : Nat) (rest : Bytes) :
    scanIriText read size (bytes ++ byte '>' :: rest)
      = .found (read.reverse ++ bytes) (size + bytes.length + 1) := by
  induction bytes generalizing read size with
  | nil =>
    rw [List.nil_append, scanIriText, if_pos rfl, List.append_nil]
    rfl
  | cons b bytes ih =>
    rw [List.mem_cons, not_or] at hclose hescape
    rw [List.cons_append, scanIriText, if_neg (Ne.symm hclose.1), if_neg (Ne.symm hescape.1),
      ih hclose.2 hescape.2, List.reverse_cons, List.append_assoc, List.singleton_append,
      List.length_cons]
    congr 1
    omega

/-- An ASCII character occurs in a text if its byte occurs in the encoding. -/
theorem byte_mem_encode_iff {text : String} {d : Char} (hd : d.toNat < 0x80) :
    byte d ∈ encode text ↔ d ∈ text.toList := by
  rw [encode, List.mem_flatMap]
  constructor
  · rintro ⟨c, hc, hb⟩
    rw [← (byte_mem_encodeChar_iff hd).1 hb]
    exact hc
  · intro h
    exact ⟨d, h, (byte_mem_encodeChar_iff hd).2 rfl⟩

/-- What stands between angle brackets is read as this IRI, whatever follows it. -/
def ReadsAs (base : Option Iri) (text : String) (i : Iri) : Prop :=
  ∀ rest, scanAngle base (encode text ++ byte '>' :: rest)
    = .found (.iri i) ((encode text).length + 2)

/-- A text without brackets and escapes is read as the reference that it is. -/
theorem scanAngle_plain (base : Option Iri) {text : String}
    (hopen : text.toList.head? ≠ some '<') (hclose : '>' ∉ text.toList)
    (hescape : '\\' ∉ text.toList) (rest : Bytes) :
    scanAngle base (encode text ++ byte '>' :: rest) =
      match base.elim (Iri.parse text) (·.resolve text) with
      | .ok iri => .found (.iri iri) ((encode text).length + 2)
      | .error e => .fault (.iri e) 0 ((encode text).length + 2) := by
  have htext := scanIriText_plain (mt (byte_mem_encode_iff (by decide)).1 hclose)
    (mt (byte_mem_encode_iff (by decide)).1 hescape) [] 1 rest
  rw [List.reverse_nil, List.nil_append, show ∀ n, 1 + n + 1 = n + 2 by omega] at htext
  have hscan : scanAngle base (encode text ++ byte '>' :: rest)
      = scanIri base (encode text ++ byte '>' :: rest) := by
    cases hfirst : encode text with
    | nil => rfl
    | cons b tail =>
      have hb : b ≠ byte '<' := by
        intro hb
        cases hlist : text.toList with
        | nil =>
          rw [encode, hlist] at hfirst
          cases hfirst
        | cons c cs =>
          obtain ⟨b', tail', hc⟩ := exists_encodeChar_eq_cons c
          rw [encode, hlist, List.flatMap_cons, hc] at hfirst
          cases hfirst
          rw [hlist] at hopen
          apply hopen
          have hmem : byte '<' ∈ encodeChar c := by
            rw [hc, hb]
            exact List.mem_cons_self
          rw [(byte_mem_encodeChar_iff (by decide)).1 hmem]
          rfl
      rw [List.cons_append, scanAngle, if_neg hb]
  rw [hscan, scanIri, htext]
  cases hread : base.elim (Iri.parse text) (·.resolve text) with
  | ok iri => simp only [fault?_encode, decodeLossy_encode, hread]
  | error e => simp only [fault?_encode, decodeLossy_encode, hread]

theorem readsAs_iff_of_plain {base : Option Iri} {text : String} {i : Iri}
    (hopen : text.toList.head? ≠ some '<') (hclose : '>' ∉ text.toList)
    (hescape : '\\' ∉ text.toList) :
    ReadsAs base text i ↔ base.elim (Iri.parse text) (·.resolve text) = .ok i := by
  have hplain := scanAngle_plain base hopen hclose hescape
  constructor
  · intro h
    have hscan := (h []).symm.trans (hplain [])
    generalize base.elim (Iri.parse text) (·.resolve text) = read at hscan
    cases read with
    | error e => cases hscan
    | ok i' =>
      cases hscan
      rfl
  · intro h rest
    rw [hplain, h]

theorem not_mem_of_all_isIriChar {cs : List Char} (h : cs.all Iri.isIriChar) {d : Char}
    (hd : Iri.isIriChar d = false) : d ∉ cs := by
  intro hmem
  have hchar := List.all_eq_true.1 h d hmem
  rw [hd] at hchar
  cases hchar

/-- What can stand in IRIs can stand between angle brackets as it is. -/
theorem readsAs_iff_of_all_isIriChar {base : Option Iri} {text : String} {i : Iri}
    (h : text.toList.all Iri.isIriChar) :
    ReadsAs base text i ↔ base.elim (Iri.parse text) (·.resolve text) = .ok i := by
  apply readsAs_iff_of_plain
  · intro hhead
    exact not_mem_of_all_isIriChar h (d := '<') (by decide) (List.mem_of_head? hhead)
  · exact not_mem_of_all_isIriChar h (by decide)
  · exact not_mem_of_all_isIriChar h (by decide)

/-- Every IRI can stand between angle brackets, and is itself against every base. -/
theorem readsAs_of_parse {text : String} {i : Iri} (h : Iri.parse text = .ok i)
    (base : Option Iri) : ReadsAs base text i := by
  rw [readsAs_iff_of_all_isIriChar (Iri.all_isIriChar_of_ofChars h)]
  cases base with
  | none => exact h
  | some base => exact Iri.resolve_of_parse h base

/-! ## Strings -/

theorem decodeLossy_encodeChar (c : Char) (rest : Bytes) :
    (decodeLossy (encodeChar c ++ rest)).toList = c :: (decodeLossy rest).toList := by
  rw [decodeLossy, readings_encodeChar, List.map_cons, decodeLossy, String.toList_ofList,
    String.toList_ofList]
  rfl

/-- A plain character goes on with the stretch that it stands in front of. -/
theorem scanShort_encodeChar {quote c : Char} (hquote : quote.toNat < 0x80)
    (hc : c ≠ quote ∧ c ≠ '\\' ∧ c ≠ '\n' ∧ c ≠ '\r') {read : List Char} {size n : Nat}
    {bytes : Bytes} {t : Token}
    (h : scanShort (byte quote) (read ++ [c]) (size + (encodeChar c).length) bytes = .found t n) :
    scanShort (byte quote) read size (encodeChar c ++ bytes) = .found t n := by
  have hplain : ∀ b ∈ encodeChar c, isPlainInShort (byte quote) b := by
    intro b hb
    have hne : ∀ d : Char, d.toNat < 0x80 → c ≠ d → b ≠ byte d := by
      intro d hd hcd hbd
      rw [hbd] at hb
      exact hcd ((byte_mem_encodeChar_iff hd).1 hb)
    simp only [isPlainInShort, isLineEnd, Bool.not_eq_true', Bool.or_eq_false_iff,
      decide_eq_false_iff_not]
    exact ⟨⟨hne _ hquote hc.1, hne _ (by decide) hc.2.1⟩,
      hne _ (by decide) hc.2.2.1, hne _ (by decide) hc.2.2.2⟩
  cases hstretch : bytes.dropWhile (isPlainInShort (byte quote)) with
  | nil =>
    rw [scanShort_nil hstretch] at h
    cases h
  | cons b rest =>
    have hstretch' : (encodeChar c ++ bytes).dropWhile (isPlainInShort (byte quote)) = b :: rest := by
      rw [List.dropWhile_append_of_pos hplain, hstretch]
    rw [scanShort_eq hstretch'] 
    rw [scanShort_eq hstretch] at h
    rw [List.takeWhile_append_of_pos hplain]
    generalize bytes.takeWhile (isPlainInShort (byte quote)) = stretch at h ⊢
    by_cases hopen : (isLineEnd b && !rest.any fun b => b = byte quote || b = byte '\\') = true
    · rw [if_pos hopen] at h
      cases h
    · rw [if_neg hopen] at h ⊢
      cases hfault : fault? stretch with
      | some fault =>
        rw [hfault] at h
        cases h
      | none =>
        rw [hfault] at h
        rw [fault?_encodeChar c hfault]
        dsimp only at h ⊢
        rw [decodeLossy_encodeChar, List.length_append, ← Nat.add_assoc, List.append_cons]
        exact h

/-- An escape stands for its character. -/
theorem scanShort_escape {quote c : Char} {escape : Bytes} (hquote : byte quote ≠ byte '\\')
    (hescape : ∀ rest, scanEscape true (escape ++ rest) = .found c (escape.length + 1))
    (read : List Char) (size : Nat) (rest : Bytes) :
    scanShort (byte quote) read size (byte '\\' :: (escape ++ rest))
      = scanShort (byte quote) (read ++ [c]) (size + (escape.length + 1)) rest := by
  have hnot : isPlainInShort (byte quote) (byte '\\') = false := by
    simp [isPlainInShort]
  have hstretch : (byte '\\' :: (escape ++ rest)).dropWhile (isPlainInShort (byte quote))
      = byte '\\' :: (escape ++ rest) := by
    rw [List.dropWhile_cons_of_neg (by rw [hnot]; exact Bool.false_ne_true)]
  have htake : (byte '\\' :: (escape ++ rest)).takeWhile (isPlainInShort (byte quote)) = [] := by
    rw [List.takeWhile_cons_of_neg (by rw [hnot]; exact Bool.false_ne_true)]
  have hline : isLineEnd (byte '\\') = false := by decide
  have hempty : decodeLossy [] = "" := decodeLossy_encode ""
  have hfault : fault? [] = none := fault?_encode ""
  rw [scanShort_eq hstretch, htake, hline, Bool.false_and, if_neg Bool.false_ne_true, hfault]
  dsimp only
  rw [if_neg (Ne.symm hquote), if_pos rfl, hescape, hempty]
  dsimp only
  rw [Nat.add_sub_cancel, List.drop_left]
  simp

theorem scanShort_close {quote : Char} (hquote : quote ≠ '\n' ∧ quote ≠ '\r' ∧ quote.toNat < 0x80)
    (read : List Char) (size : Nat) (rest : Bytes) :
    scanShort (byte quote) read size (byte quote :: rest)
      = .found (.string (.ofList read)) (size + 1) := by
  have hnot : isPlainInShort (byte quote) (byte quote) = false := by
    simp [isPlainInShort]
  have hstretch : (byte quote :: rest).dropWhile (isPlainInShort (byte quote))
      = byte quote :: rest := by
    rw [List.dropWhile_cons_of_neg (by rw [hnot]; exact Bool.false_ne_true)]
  have htake : (byte quote :: rest).takeWhile (isPlainInShort (byte quote)) = [] := by
    rw [List.takeWhile_cons_of_neg (by rw [hnot]; exact Bool.false_ne_true)]
  have hne : ∀ d : Char, d.toNat < 0x80 → quote ≠ d → byte quote ≠ byte d := by
    intro d hd hqd hb
    have := congrArg UInt8.toNat hb
    rw [toNat_byte hquote.2.2, toNat_byte hd] at this
    exact hqd (Char.toNat_inj.1 this)
  have hline : isLineEnd (byte quote) = false := by
    simp only [isLineEnd, Bool.or_eq_false_iff, decide_eq_false_iff_not]
    exact ⟨hne _ (by decide) hquote.1, hne _ (by decide) hquote.2.1⟩
  have hempty : decodeLossy [] = "" := decodeLossy_encode ""
  have hfault : fault? [] = none := fault?_encode ""
  rw [scanShort_eq hstretch, htake, hline, Bool.false_and, if_neg Bool.false_ne_true, hfault]
  dsimp only
  rw [if_pos rfl, hempty]
  simp

/-! ## Escapes -/

theorem flatMap_encodeChar_ascii {cs : List Char} (h : cs.all (·.toNat < 0x80)) :
    cs.flatMap encodeChar = cs.map byte := by
  induction cs with
  | nil => rfl
  | cons c cs ih =>
    rw [List.all_cons, Bool.and_eq_true, decide_eq_true_eq] at h
    rw [List.flatMap_cons, encodeChar_ascii h.1, ih h.2]
    rfl

/-- ASCII characters are known from their bytes. -/
theorem map_ofNat_byte {cs : List Char} (h : cs.all (·.toNat < 0x80)) :
    (cs.map byte).map (fun b => Char.ofNat b.toNat) = cs := by
  induction cs with
  | nil => rfl
  | cons c cs ih =>
    rw [List.all_cons, Bool.and_eq_true, decide_eq_true_eq] at h
    rw [List.map_cons, List.map_cons, toNat_byte h.1, Char.ofNat_toNat, ih h.2]

/-- The four digits of a control character. -/
theorem hex_of_control : ∀ n < 0xA0,
    (Hex.pad 4 (Hex.upper n)).all (·.toNat < 0x80) ∧ (Hex.pad 4 (Hex.upper n)).length = 4
      ∧ Hex.value? (Hex.pad 4 (Hex.upper n)) = some n := by
  decide +kernel

theorem lt_of_isControl {c : Char} (h : isControl c) : c.toNat < 0xA0 := by
  simp only [isControl, Bool.or_eq_true, Bool.and_eq_true, decide_eq_true_eq] at h
  omega

/-- A control character is spelled by its code point, and read back from it. -/
theorem scanEscape_control {c : Char} (hc : isControl c) (rest : Bytes) :
    scanEscape true (byte 'u' :: (Hex.pad 4 (Hex.upper c.toNat)).flatMap encodeChar ++ rest)
      = .found c 6 := by
  have hlt := lt_of_isControl hc
  obtain ⟨hascii, hlength, hvalue⟩ := hex_of_control c.toNat hlt
  generalize Hex.pad 4 (Hex.upper c.toNat) = digits at *
  have htake : (digits.map byte ++ rest).take 4 = digits.map byte := by
    rw [List.take_append_of_le_length (by rw [List.length_map]; omega), List.take_of_length_le
      (by rw [List.length_map]; omega)]
  have hvalid : c.toNat.isValidChar := c.valid
  rw [List.cons_append, scanEscape, if_pos rfl, flatMap_encodeChar_ascii hascii, scanCodePoint]
  rw [htake, map_ofNat_byte hascii, List.length_map, if_neg (by omega), hvalue]
  dsimp only
  rw [if_pos hvalid, Char.ofNat_toNat]

/-! ## Whole strings -/

/-- However a character is spelled in a string, it is read back in front of the rest. -/
theorem scanShort_escaped (c : Char) {read : List Char} {size n : Nat} {bytes : Bytes} {t : Token}
    (h : scanShort (byte '\x22') (read ++ [c]) (size + ((escaped c).flatMap encodeChar).length)
      bytes = .found t n) :
    scanShort (byte '\x22') read size ((escaped c).flatMap encodeChar ++ bytes) = .found t n := by
  have hquote : byte '\x22' ≠ byte '\\' := by decide
  have hletter : ∀ letter : Char, escaped c = ['\\', letter] → letter.toNat < 0x80 →
      letter ≠ 'u' → letter ≠ 'U' → shortEscape? (byte letter) = some c →
      scanShort (byte '\x22') read size ((escaped c).flatMap encodeChar ++ bytes)
        = .found t n := by
    intro letter hspelled hascii hu hU hshort
    have hne : ∀ d : Char, d.toNat < 0x80 → letter ≠ d → byte letter ≠ byte d := by
      intro d hd hld hb
      have := congrArg UInt8.toNat hb
      rw [toNat_byte hascii, toNat_byte hd] at this
      exact hld (Char.toNat_inj.1 this)
    have hbytes : (escaped c).flatMap encodeChar = [byte '\\', byte letter] := by
      rw [hspelled, flatMap_encodeChar_ascii (by simpa using hascii)]
      rfl
    have hescape : ∀ rest, scanEscape true ([byte letter] ++ rest) = .found c (1 + 1) := by
      intro rest
      rw [List.singleton_append, scanEscape, if_neg (hne 'u' (by decide) hu),
        if_neg (hne 'U' (by decide) hU), if_pos rfl, hshort]
    rw [hbytes] at h ⊢
    show scanShort (byte '\x22') read size (byte '\\' :: ([byte letter] ++ bytes)) = _
    rw [scanShort_escape hquote hescape]
    exact h
  unfold escaped at hletter h ⊢
  by_cases h₁ : c = '\\'
  · subst h₁
    exact hletter '\\' rfl (by decide) (by decide) (by decide) (by decide)
  by_cases h₂ : c = '\x22'
  · subst h₂
    exact hletter '\x22' rfl (by decide) (by decide) (by decide) (by decide)
  by_cases h₃ : c = '\n'
  · subst h₃
    exact hletter 'n' rfl (by decide) (by decide) (by decide) (by decide)
  by_cases h₄ : c = '\r'
  · subst h₄
    exact hletter 'r' rfl (by decide) (by decide) (by decide) (by decide)
  by_cases h₅ : c = '\t'
  · subst h₅
    exact hletter 't' rfl (by decide) (by decide) (by decide) (by decide)
  rw [if_neg h₁, if_neg h₂, if_neg h₃, if_neg h₄, if_neg h₅] at h ⊢
  by_cases hcontrol : isControl c = true
  · rw [if_pos hcontrol] at h ⊢
    obtain ⟨hascii, hlength, -⟩ := hex_of_control c.toNat (lt_of_isControl hcontrol)
    have hbytes : ((Hex.pad 4 (Hex.upper c.toNat)).flatMap encodeChar).length = 4 := by
      rw [flatMap_encodeChar_ascii hascii, List.length_map, hlength]
    have hescape : ∀ rest, scanEscape true
        ((byte 'u' :: (Hex.pad 4 (Hex.upper c.toNat)).flatMap encodeChar) ++ rest)
        = .found c ((byte 'u' :: (Hex.pad 4 (Hex.upper c.toNat)).flatMap encodeChar).length + 1) := by
      intro rest
      rw [List.length_cons, hbytes]
      exact scanEscape_control hcontrol rest
    have hspelled : ('\\' :: 'u' :: Hex.pad 4 (Hex.upper c.toNat)).flatMap encodeChar
        = byte '\\' :: (byte 'u' :: (Hex.pad 4 (Hex.upper c.toNat)).flatMap encodeChar) := rfl
    rw [hspelled] at h ⊢
    rw [List.cons_append, scanShort_escape hquote hescape]
    exact h
  · rw [if_neg hcontrol] at h ⊢
    rw [List.flatMap_cons, List.flatMap_nil, List.append_nil] at h ⊢
    exact scanShort_encodeChar (by decide) ⟨h₂, h₁, h₃, h₄⟩ h

/-- The characters of a string are read back up to its closing quote. -/
theorem scanShort_quoted (cs read : List Char) (size : Nat) (rest : Bytes) :
    scanShort (byte '\x22') read size ((cs.flatMap escaped).flatMap encodeChar
        ++ byte '\x22' :: rest)
      = .found (.string (.ofList (read ++ cs)))
        (size + ((cs.flatMap escaped).flatMap encodeChar).length + 1) := by
  induction cs generalizing read size with
  | nil =>
    rw [List.append_nil]
    exact scanShort_close (by decide) read size rest
  | cons c cs ih =>
    rw [List.flatMap_cons, List.flatMap_append, List.append_assoc, List.length_append,
      ← Nat.add_assoc]
    apply scanShort_escaped
    rw [ih, List.append_assoc, List.singleton_append]

/-- A string with a character is read back whatever follows it, since the character keeps the quotes
apart. -/
theorem scanString_quoted_cons (d : Char) (cs : List Char) (rest : Bytes) :
    scanString (byte '\x22') (((d :: cs).flatMap escaped).flatMap encodeChar
        ++ byte '\x22' :: rest)
      = .found (.string (.ofList (d :: cs)))
        ((((d :: cs).flatMap escaped).flatMap encodeChar).length + 2) := by
  have hshort := scanShort_quoted (d :: cs) [] 1 rest
  rw [List.nil_append, show ∀ n, 1 + n + 1 = n + 2 by omega] at hshort
  have hfirst : ∃ b tail, (escaped d).flatMap encodeChar = b :: tail ∧ b ≠ byte '\x22' := by
    have hbackslash : byte '\\' ≠ byte '\x22' := by decide
    unfold escaped
    by_cases h₂ : d = '\x22'
    · subst h₂
      exact ⟨_, _, rfl, hbackslash⟩
    repeat' split
    all_goals first
      | exact ⟨_, _, rfl, hbackslash⟩
      | skip
    obtain ⟨b, tail, hb⟩ := exists_encodeChar_eq_cons d
    refine ⟨b, tail, by rw [List.flatMap_cons, List.flatMap_nil, List.append_nil, hb], ?_⟩
    rintro rfl
    apply h₂
    rw [← byte_mem_encodeChar_iff (d := '\x22') (by decide), hb]
    exact List.mem_cons_self
  obtain ⟨b, tail, hb, hne⟩ := hfirst
  rw [List.flatMap_cons, List.flatMap_append, hb, List.cons_append, List.cons_append] at hshort ⊢
  unfold scanString
  dsimp only
  rw [if_neg hne]
  exact hshort

/-- A string in quotes is read back in front of anything but a quote. -/
theorem scanString_quoted (cs : List Char) {c : UInt8} (hc : c ≠ byte '\x22') (rest : Bytes) :
    scanString (byte '\x22') ((cs.flatMap escaped).flatMap encodeChar
        ++ byte '\x22' :: c :: rest)
      = .found (.string (.ofList cs)) (((cs.flatMap escaped).flatMap encodeChar).length + 2) := by
  cases cs with
  | nil =>
    rw [List.flatMap_nil, List.flatMap_nil, List.nil_append, scanString, if_pos rfl]
    rw [if_neg hc]
    exact scanShort_quoted [] [] 1 (c :: rest)
  | cons d cs => exact scanString_quoted_cons d cs (c :: rest)

/-- The bytes of a string in quotes. -/
theorem encode_quoted (text : String) :
    encode (quoted text) = byte '\x22' ::
      ((text.toList.flatMap escaped).flatMap encodeChar ++ [byte '\x22']) := by
  rw [quoted, encode_ofList, List.cons_append, List.flatMap_cons, List.flatMap_append]
  rfl

end TidyTrig.Trig
