import TidyTrig.Proofs.Trig.Directive
import TidyTrig.Proofs.Trig.Lookahead
import TidyTrig.Proofs.Trig.Words

/-!
# A scan steps over what a parser reads

A scan for directives has its own idea of how far strings, IRIs and comments go. Where the parser
reads a string or an IRI, the two agree: an escape hides at most one byte from the scan, and what
follows in it are digits.
-/

namespace TidyTrig.Trig

open Utf8 (byte)

/-! ## Escapes -/

/-- Whether a byte is a hexadecimal digit. -/
def isHexByte (b : UInt8) : Bool := Hex.isDigit (Char.ofNat b.toNat)

theorem isHexByte_spec (b : UInt8) (h : isHexByte b) :
    b ≠ byte '\x22' ∧ b ≠ byte '\x27' ∧ b ≠ byte '\\' ∧ b ≠ byte '\n' ∧ b ≠ byte '>' := by
  revert h
  revert b
  apply forall_byte
  decide +kernel

theorem all_isDigit_of_value? {digits : List Char} {n : Nat} (h : Hex.value? digits = some n) :
    digits.all Hex.isDigit := by
  obtain ⟨values, hvalues, -⟩ := Option.map_eq_some_iff.1 h
  clear h
  induction digits generalizing values with
  | nil => rfl
  | cons c digits ih =>
    rw [List.mapM_cons] at hvalues
    obtain ⟨value, hvalue, hrest⟩ := Option.bind_eq_some_iff.1 hvalues
    obtain ⟨later, hlater, -⟩ := Option.bind_eq_some_iff.1 hrest
    rw [List.all_cons, ih later hlater, Hex.isDigit, hvalue]
    rfl

/-- What an escape by number stands for is known from its digits alone. -/
theorem exists_digits_of_scanCodePoint {letter : Char} {n : Nat} {bytes : Bytes} {c : Char}
    {width : Nat} (h : scanCodePoint letter n bytes = .found c width) :
    ∃ digits later, bytes = digits ++ later ∧ width = 2 + digits.length ∧ digits.all isHexByte
      ∧ ∀ later', scanCodePoint letter n (digits ++ later') = .found c width := by
  -- Only the first `n` bytes are looked at, if there are as many.
  have hsame : ∀ later', n ≤ bytes.length →
      scanCodePoint letter n (bytes.take n ++ later') = scanCodePoint letter n bytes := by
    intro later' hn
    have htake : (bytes.take n ++ later').take n = bytes.take n := by
      apply List.take_left'
      rw [List.length_take, Nat.min_eq_left hn]
    unfold scanCodePoint
    rw [htake]
  have hscan := h
  unfold scanCodePoint at h
  dsimp only at h
  split at h
  · cases h
  · next hlength =>
    have hle : n ≤ bytes.length := by
      rw [List.length_take] at hlength
      omega
    split at h
    · cases h
    · next value hvalue =>
      split at h
      · cases h
        refine ⟨bytes.take n, bytes.drop n, (List.take_append_drop n bytes).symm, ?_, ?_, ?_⟩
        · rw [List.length_take, Nat.min_eq_left hle]
        · have hall := all_isDigit_of_value? hvalue
          rw [List.all_map] at hall
          exact hall
        · intro later'
          rw [hsame later' hle, hscan]
      · cases h

/-- An escape is one byte after its backslash, and digits, whatever follows them. -/
theorem exists_digits_of_scanEscape {inString : Bool} {bytes : Bytes} {c : Char} {width : Nat}
    (h : scanEscape inString bytes = .found c width) :
    ∃ e digits later, bytes = e :: (digits ++ later) ∧ width = 2 + digits.length
      ∧ digits.all isHexByte
      ∧ ∀ later', scanEscape inString (e :: (digits ++ later')) = .found c width := by
  cases bytes with
  | nil => cases h
  | cons e rest =>
    have hscan := h
    unfold scanEscape at h
    dsimp only at h
    split at h
    · next he =>
      obtain ⟨digits, later, rfl, hwidth, hall, hagain⟩ := exists_digits_of_scanCodePoint h
      refine ⟨e, digits, later, rfl, hwidth, hall, ?_⟩
      intro later'
      rw [scanEscape, if_pos he]
      exact hagain later'
    · next he =>
      split at h
      · next he' =>
        obtain ⟨digits, later, rfl, hwidth, hall, hagain⟩ := exists_digits_of_scanCodePoint h
        refine ⟨e, digits, later, rfl, hwidth, hall, ?_⟩
        intro later'
        rw [scanEscape, if_neg he, if_pos he']
        exact hagain later'
      · next he' =>
        split at h
        · next hshort =>
          cases h
          refine ⟨e, [], rest, rfl, rfl, rfl, ?_⟩
          intro later'
          rw [scanEscape, if_neg he, if_neg he', hshort]
        · cases h

/-! ## IRIs -/

/-- In an IRI, an escape starts with a letter. -/
theorem exists_digits_of_escape {bytes : Bytes} {c : Char} {width : Nat}
    (h : scanEscape false bytes = .found c width) :
    ∃ escape later, bytes = escape ++ later ∧ width = 1 + escape.length
      ∧ escape.all Directive.isIriByte
      ∧ ∀ later', scanEscape false (escape ++ later') = .found c width := by
  obtain ⟨e, digits, later, rfl, hwidth, hdigits, hagain⟩ := exists_digits_of_scanEscape h
  refine ⟨e :: digits, later, rfl, ?_, ?_, hagain⟩
  · rw [hwidth, List.length_cons]
    omega
  · have he : e = byte 'u' ∨ e = byte 'U' := by
      unfold scanEscape at h
      dsimp only at h
      split at h
      · next he => exact .inl he
      · split at h
        · next he => exact .inr he
        · rw [if_neg Bool.false_ne_true] at h
          cases h
    have hletter : Directive.isIriByte e := by
      rcases he with rfl | rfl <;> decide
    rw [List.all_cons, hletter, Bool.true_and]
    apply List.all_eq_true.2
    intro b hb
    obtain ⟨-, -, -, hline, hclose⟩ := isHexByte_spec b (List.all_eq_true.1 hdigits b hb)
    simp [Directive.isIriByte, hline, hclose]

/-- The bytes of an IRI run up to its first closing bracket, and a line feed among them is one of
its content. -/
theorem of_scanIriText {read bytes content : Bytes} {size n : Nat}
    (h : scanIriText read size bytes = .found content n) :
    (∀ b ∈ read, b ∈ content) ∧ ∃ inside rest, bytes = inside ++ byte '>' :: rest
      ∧ n = size + inside.length + 1 ∧ byte '>' ∉ inside
      ∧ (byte '\n' ∈ inside → byte '\n' ∈ content)
      ∧ ∀ rest', scanIriText read size (inside ++ byte '>' :: rest') = .found content n := by
  induction hn : bytes.length using Nat.strongRecOn generalizing read size bytes with
  | ind m ih =>
    cases bytes with
    | nil =>
      rw [scanIriText] at h
      cases h
    | cons b rest =>
      rw [scanIriText] at h
      split at h
      · next hb =>
        -- The bracket closes, and nothing is looked at behind it.
        cases h
        refine ⟨fun _ hb => List.mem_reverse.2 hb, [], rest, by rw [hb]; rfl, rfl,
          List.not_mem_nil, fun h => absurd h List.not_mem_nil, ?_⟩
        intro rest'
        rw [List.nil_append, scanIriText, if_pos rfl]
      · next hclose =>
        split at h
        · next hback =>
          split at h
          · cases h
          · next c width hescape =>
            -- An escape is passed over whole; its digits are no bracket and no line feed.
            obtain ⟨escape, later, rfl, rfl, hall, hescapes⟩ := exists_digits_of_escape hescape
            have hdrop : (escape ++ later).drop (1 + escape.length - 1) = later := by
              rw [Nat.add_sub_cancel_left, List.drop_left]
            rw [hdrop] at h
            have hlt : later.length < m := by
              rw [← hn, List.length_cons, List.length_append]
              omega
            obtain ⟨hread, inside, tail, rfl, hsize, hin, hline, hagain⟩ := ih _ hlt h rfl
            refine ⟨fun b hb => hread b (List.mem_append_right _ hb), b :: (escape ++ inside), tail,
              ?_, ?_, ?_, ?_, ?_⟩
            · rw [List.cons_append, List.append_assoc]
            · rw [hsize, List.length_cons, List.length_append]
              omega
            · rw [List.mem_cons, List.mem_append, not_or, not_or]
              refine ⟨Ne.symm hclose, ?_, hin⟩
              intro hmem
              exact absurd (List.all_eq_true.1 hall _ hmem) (by decide)
            · intro hmem
              rw [List.mem_cons, List.mem_append] at hmem
              rcases hmem with hmem | hmem | hmem
              · rw [hback] at hmem
                exact absurd hmem (by decide)
              · exact absurd (List.all_eq_true.1 hall _ hmem) (by decide)
              · exact hline hmem
            · intro rest'
              have hdrop' : (escape ++ (inside ++ byte '>' :: rest')).drop (1 + escape.length - 1)
                  = inside ++ byte '>' :: rest' := by
                rw [Nat.add_sub_cancel_left, List.drop_left]
              rw [List.cons_append, List.append_assoc, scanIriText, if_neg hclose, if_pos hback,
                hescapes]
              dsimp only
              rw [hdrop']
              exact hagain rest'
          · cases h
        · next hback =>
          obtain ⟨hread, inside, tail, rfl, hsize, hin, hline, hagain⟩ :=
            ih rest.length (by rw [← hn, List.length_cons]; omega) h rfl
          refine ⟨fun b hb => hread b (List.mem_cons_of_mem _ hb), b :: inside, tail, rfl, ?_, ?_,
            ?_, ?_⟩
          · rw [hsize, List.length_cons]
            omega
          · rw [List.mem_cons, not_or]
            exact ⟨Ne.symm hclose, hin⟩
          · intro hmem
            rcases List.mem_cons.1 hmem with hmem | hmem
            · exact hread _ (hmem ▸ List.mem_cons_self)
            · exact hline hmem
          · intro rest'
            rw [List.cons_append, scanIriText, if_neg hclose, if_neg hback]
            exact hagain rest'

/-- An IRI runs up to its first closing bracket, on one line, whatever follows it. -/
theorem of_scanIri {base : Option Iri} {bytes : Bytes} {t : Token} {n : Nat}
    (h : scanIri base bytes = .found t n) :
    ∃ inside rest, bytes = inside ++ byte '>' :: rest ∧ n = inside.length + 2
      ∧ inside.all Directive.isIriByte
      ∧ ∀ rest', scanIri base (inside ++ byte '>' :: rest') = .found t n := by
  have hscan := h
  unfold scanIri at h
  split at h
  · cases h
  · cases h
  · next content size hcontent =>
    split at h
    · cases h
    · next hfault =>
      dsimp only at h
      split at h
      · next i hi =>
        cases h
        obtain ⟨-, inside, rest, hbytes, hsize, hclose, hline, hagain⟩ := of_scanIriText hcontent
        refine ⟨inside, rest, hbytes, by omega, ?_, ?_⟩
        · have hchars : (Utf8.decodeLossy content).toList.all Iri.isIriChar := by
            cases base with
            | none => exact Iri.all_isIriChar_of_ofChars hi
            | some base => exact Iri.all_isIriChar_of_resolve hi
          apply List.all_eq_true.2
          intro b hb
          have hb' : b ≠ byte '>' := fun heq => hclose (heq ▸ hb)
          have hline' : b ≠ byte '\n' := by
            intro heq
            have hmem := Utf8.mem_decodeLossy_of_byte (by decide) hfault (hline (heq ▸ hb))
            exact not_mem_of_all_isIriChar hchars (by decide) hmem
          simp [Directive.isIriByte, hb', hline']
        · intro rest'
          rw [← hscan, scanIri, hagain, scanIri, hcontent]
      · cases h

/-- What is read as an IRI can stand in a directive. -/
theorem all_isIriByte_of_readsAs {base : Option Iri} {text : String} {i : Iri}
    (h : ReadsAs base text i) : (Utf8.encode text).all Directive.isIriByte := by
  have hread := h []
  have hscan : scanIri base (Utf8.encode text ++ byte '>' :: [])
      = .found (.iri i) ((Utf8.encode text).length + 2) := by
    cases htext : Utf8.encode text with
    | nil =>
      rw [htext] at hread
      exact hread
    | cons b tail =>
      rw [htext, List.cons_append, scanAngle] at hread
      split at hread
      · cases hread
      · exact hread
  obtain ⟨inside, rest, hbytes, hlength, hall, -⟩ := of_scanIri hscan
  have hsame := List.append_inj_left hbytes (by omega)
  rw [hsame]
  exact hall

/-! ## Strings -/

namespace Directive

/-- What neither ends a string nor escapes is passed byte by byte. -/
theorem lengthToQuote_append {quote : UInt8} {isLong : Bool} {stretch : Bytes}
    (hstretch : stretch.all fun b =>
      !(b = quote || b = byte '\\' || (!isLong && b = byte '\n'))) (rest : Bytes) :
    lengthToQuote quote isLong (stretch ++ rest)
      = stretch.length + lengthToQuote quote isLong rest := by
  induction stretch with
  | nil => rw [List.nil_append, List.length_nil, Nat.zero_add]
  | cons b stretch ih =>
    rw [List.all_cons, Bool.and_eq_true] at hstretch
    obtain ⟨hb, hrest⟩ := hstretch
    simp only [Bool.not_eq_true', Bool.or_eq_false_iff, decide_eq_false_iff_not] at hb
    rw [List.cons_append, lengthToQuote.eq_def]
    dsimp only
    rw [if_neg hb.1.2, ih hrest, List.length_cons]
    cases isLong with
    | true =>
      rw [if_pos rfl, if_neg (by simp [hb.1.1])]
      omega
    | false =>
      have hline : b ≠ byte '\n' := by simpa using hb.2
      rw [if_neg Bool.false_ne_true, if_neg (by simp [hb.1.1, hline])]
      omega

theorem lengthToQuote_escape {quote : UInt8} (hquote : quote = byte '\x22' ∨ quote = byte '\x27')
    (isLong : Bool) {bytes : Bytes} {c : Char} {width : Nat}
    (h : scanEscape true bytes = .found c width) :
    lengthToQuote quote isLong (byte '\\' :: bytes)
      = width + lengthToQuote quote isLong (bytes.drop (width - 1)) := by
  obtain ⟨e, digits, later, rfl, rfl, hdigits, -⟩ := exists_digits_of_scanEscape h
  have hplain : digits.all fun b =>
      !(b = quote || b = byte '\\' || (!isLong && b = byte '\n')) := by
    apply List.all_eq_true.2
    intro b hb
    obtain ⟨hdouble, hsingle, hback, hline, -⟩ := isHexByte_spec b (List.all_eq_true.1 hdigits b hb)
    have hne : b ≠ quote := by
      rcases hquote with rfl | rfl
      · exact hdouble
      · exact hsingle
    simp [hne, hback, hline]
  have hdrop : (e :: (digits ++ later)).drop (2 + digits.length - 1) = later := by
    have hwidth : 2 + digits.length - 1 = digits.length + 1 := by omega
    rw [hwidth, List.drop_succ_cons, List.drop_left]
  rw [hdrop, lengthToQuote.eq_def]
  dsimp only
  rw [if_pos rfl, lengthToQuote_append hplain]
  omega

/-- A string between triple quotes ends where the parser ends it. -/
theorem lengthToQuote_of_scanLong {quote : UInt8}
    (hquote : quote = byte '\x22' ∨ quote = byte '\x27') {read : List Char} {size n : Nat}
    {bytes : Bytes} {t : Token} (h : scanLong quote read size bytes = .found t n) :
    n = size + lengthToQuote quote true bytes := by
  induction hn : bytes.length using Nat.strongRecOn generalizing read size bytes with
  | ind m ih =>
    cases hstretch : bytes.dropWhile (isPlainInLong quote) with
    | nil =>
      rw [scanLong_nil hstretch] at h
      cases h
    | cons b rest =>
      have hlt := length_lt_of_dropWhile hstretch
      have hbytes : bytes = bytes.takeWhile (isPlainInLong quote) ++ b :: rest := by
        rw [← hstretch, List.takeWhile_append_dropWhile]
      have hplain : (bytes.takeWhile (isPlainInLong quote)).all fun b =>
          !(b = quote || b = byte '\\' || (!true && b = byte '\n')) := by
        apply List.all_eq_true.2
        intro b hb
        have hin := List.all_eq_true.1 List.all_takeWhile b hb
        simpa [isPlainInLong] using hin
      have hb : isPlainInLong quote b = false := by
        have hhead := List.head?_dropWhile_not (isPlainInLong quote) bytes
        rw [hstretch] at hhead
        simpa using hhead
      rw [scanLong_eq hstretch] at h
      generalize hword : bytes.takeWhile (isPlainInLong quote) = stretch at h hbytes hplain
      rw [hbytes, lengthToQuote_append hplain]
      split at h
      · cases h
      · dsimp only at h
        split at h
        · next hback =>
          subst hback
          split at h
          · cases h
          · next c width hescape =>
            -- Both pass over the whole escape.
            have hdrop : (rest.drop (width - 1)).length < m := by
              rw [← hn, List.length_drop]
              omega
            rw [lengthToQuote_escape hquote true hescape, ih _ hdrop h rfl]
            omega
          · cases h
        · next hback =>
          have hq : b = quote := by
            simpa [isPlainInLong, hback] using hb
          subst hq
          split at h
          · cases h
          · -- A quote closes with two more behind it, and is a character otherwise.
            rw [lengthToQuote.eq_def]
            dsimp only
            rw [if_neg hback, if_pos rfl]
            split at h
            · next htake =>
              cases h
              rw [htake]
              simp
              omega
            · next htake =>
              rw [if_neg (by simp [htake]), ih _ (hn ▸ hlt) h rfl]
              omega

/-- A string that ends on its line ends where the parser ends it. -/
theorem lengthToQuote_of_scanShort {quote : UInt8}
    (hquote : quote = byte '\x22' ∨ quote = byte '\x27') {read : List Char} {size n : Nat}
    {bytes : Bytes} {t : Token} (h : scanShort quote read size bytes = .found t n) :
    n = size + lengthToQuote quote false bytes := by
  induction hn : bytes.length using Nat.strongRecOn generalizing read size bytes with
  | ind m ih =>
    cases hstretch : bytes.dropWhile (isPlainInShort quote) with
    | nil =>
      rw [scanShort_nil hstretch] at h
      cases h
    | cons b rest =>
      have hlt := length_lt_of_dropWhile hstretch
      have hbytes : bytes = bytes.takeWhile (isPlainInShort quote) ++ b :: rest := by
        rw [← hstretch, List.takeWhile_append_dropWhile]
      have hplain : (bytes.takeWhile (isPlainInShort quote)).all fun b =>
          !(b = quote || b = byte '\\' || (!false && b = byte '\n')) := by
        apply List.all_eq_true.2
        intro b hb
        have hin := List.all_eq_true.1 List.all_takeWhile b hb
        simp only [isPlainInShort, isLineEnd, Bool.not_eq_true', Bool.or_eq_false_iff] at hin
        simp only [Bool.not_eq_true', Bool.or_eq_false_iff, Bool.not_false, Bool.true_and]
        exact ⟨hin.1, hin.2.1⟩
      rw [scanShort_eq hstretch] at h
      generalize bytes.takeWhile (isPlainInShort quote) = stretch at h hbytes hplain
      rw [hbytes, lengthToQuote_append hplain]
      split at h
      · cases h
      · split at h
        · cases h
        · dsimp only at h
          split at h
          · next hq =>
            cases h
            have hback : b ≠ byte '\\' := by
              rcases hquote with rfl | rfl
              · rw [hq]
                decide
              · rw [hq]
                decide
            rw [lengthToQuote.eq_def]
            dsimp only
            rw [if_neg hback, if_neg Bool.false_ne_true, if_pos (by simp [hq])]
            omega
          · split at h
            · next hback =>
              subst hback
              split at h
              · cases h
              · next c width hescape =>
                have hdrop : (rest.drop (width - 1)).length < m := by
                  rw [← hn, List.length_drop]
                  omega
                rw [lengthToQuote_escape hquote false hescape, ih _ hdrop h rfl]
                omega
              · unfold faultToQuote at h
                split at h <;> cases h
            · unfold faultToQuote at h
              split at h <;> cases h

/-- A string ends where the parser ends it. -/
theorem stringLength_of_scanString {quote : UInt8}
    (hquote : quote = byte '\x22' ∨ quote = byte '\x27') {bytes : Bytes} {t : Token} {n : Nat}
    (h : scanString quote bytes = .found t n) : stringLength (quote :: bytes) = n := by
  cases bytes with
  | nil => cases h
  | cons b rest =>
    unfold scanString at h
    dsimp only at h
    split at h
    · next hb =>
      subst hb
      cases rest with
      | nil => cases h
      | cons b' rest' =>
        dsimp only at h
        split at h
        · next hb' =>
          subst hb'
          rw [lengthToQuote_of_scanLong hquote h]
          unfold stringLength
          dsimp only
          rw [if_pos (show (b' :: b' :: rest').take 2 = [b', b'] from rfl)]
          rfl
        · next hb' =>
          rw [lengthToQuote_of_scanShort hquote h]
          unfold stringLength
          dsimp only
          rw [if_neg (by simpa using hb')]
    · next hb =>
      rw [lengthToQuote_of_scanShort hquote h]
      unfold stringLength
      dsimp only
      rw [if_neg]
      intro htake
      cases rest with
      | nil => cases htake
      | cons b' rest' => exact hb (List.cons.inj htake).1

/-! ## Passing -/

/-- A string is passed. -/
theorem finds_string {quote : UInt8} (hquote : quote = byte '\x22' ∨ quote = byte '\x27')
    {tail rest : Bytes} {t : Token}
    (h : scanString quote (tail ++ rest) = .found t (quote :: tail).length) (mayStart : Bool) :
    finds mayStart (quote :: tail ++ rest) = finds (mayPrecede (quote :: tail).getLast?) rest := by
  have hstart : lowerByte quote ≠ byte 'p' ∧ quote ≠ byte '@' ∧ quote ≠ byte '#' := by
    rcases hquote with rfl | rfl <;> decide
  apply finds_stride
  · intro _
    exact parts?_eq_none hstart.1 hstart.2.1 _
  · rw [stride, if_neg hstart.2.2, if_pos (by simpa using hquote),
      stringLength_of_scanString hquote h]

theorem lengthThrough_append {p : UInt8 → Bool} {inside : Bytes} (hinside : inside.all fun b => !p b)
    {b : UInt8} (hb : p b) (rest : Bytes) :
    lengthThrough p (inside ++ b :: rest) = inside.length + 1 := by
  have hfind : (inside ++ b :: rest).findIdx? p = some inside.length := by
    have hnone : inside.findIdx? p = none := by
      rw [List.findIdx?_eq_none_iff]
      intro c hc
      simpa using List.all_eq_true.1 hinside c hc
    rw [List.findIdx?_append, hnone, List.findIdx?_cons, hb, if_pos rfl, Option.map_some,
      Nat.zero_add, Option.none_or]
  rw [lengthThrough, hfind]

/-- What stands between brackets is passed with them, if it has no line end. -/
theorem finds_angle {inside : Bytes} (hinside : inside.all isIriByte) (mayStart : Bool)
    (rest : Bytes) :
    finds mayStart (byte '<' :: (inside ++ byte '>' :: rest)) = finds false rest := by
  have hlength : stride (byte '<') (inside ++ byte '>' :: rest)
      = (byte '<' :: (inside ++ [byte '>'])).length := by
    have hfirst : (byte '<' = byte '#') = False := by decide
    have hquote : (byte '<' = byte '\x22' || byte '<' = byte '\x27') = false := by decide
    rw [stride, if_neg (by simp [hfirst]), hquote, if_neg Bool.false_ne_true, if_pos rfl, iriLength,
      lengthThrough_append hinside (by decide)]
    simp only [List.length_cons, List.length_append, List.length_nil]
    omega
  have hpass : finds mayStart (byte '<' :: (inside ++ [byte '>']) ++ rest)
      = finds (mayPrecede (byte '<' :: (inside ++ [byte '>'])).getLast?) rest := by
    apply finds_stride
    · intro _
      exact parts?_eq_none (by decide) (by decide) _
    · rw [List.append_assoc]
      exact hlength
  have hbytes : byte '<' :: (inside ++ byte '>' :: rest)
      = byte '<' :: (inside ++ [byte '>']) ++ rest := by
    rw [List.cons_append, List.append_assoc]
    rfl
  rw [hbytes, hpass, ← List.cons_append, List.getLast?_concat]
  rfl

end Directive

end TidyTrig.Trig
