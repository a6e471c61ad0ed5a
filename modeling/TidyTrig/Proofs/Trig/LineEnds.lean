import Mathlib.Data.List.TakeWhile
import TidyTrig.Proofs.Trig.Stepping
import TidyTrig.Proofs.Trig.Yield

/-!
# Line ends in tokens

Of all tokens only a string in triple quotes may hold a line end, and it holds it between its quotes.
So no token has a line feed as its second byte or a carriage return as its last (`isSteady_scan`).
Bytes that are no token may have both.
-/

namespace TidyTrig.Trig

open Utf8

/-! ## Bytes on one line -/

/-- Whether bytes hold no line end. -/
def IsFlat (bytes : Bytes) : Prop := ∀ b ∈ bytes, isLineEnd b = false

theorem isFlat_nil : IsFlat [] := fun _ h => nomatch h

theorem isFlat_cons {b : UInt8} {bytes : Bytes} (hb : isLineEnd b = false) (h : IsFlat bytes) :
    IsFlat (b :: bytes) :=
  List.forall_mem_cons.2 ⟨hb, h⟩

theorem IsFlat.append {front back : Bytes} (hfront : IsFlat front) (hback : IsFlat back) :
    IsFlat (front ++ back) :=
  fun b hb => (List.mem_append.1 hb).elim (hfront b) (hback b)

theorem IsFlat.take {bytes : Bytes} (h : IsFlat bytes) (n : Nat) : IsFlat (bytes.take n) :=
  fun b hb => h b (List.mem_of_mem_take hb)

theorem isFlat_encodeChar {p : Char → Bool} (hfeed : p '\n' = false) (hreturn : p '\r' = false)
    {c : Char} (hc : p c) : IsFlat (encodeChar c) := by
  intro b hb
  rw [isLineEnd, Bool.or_eq_false_iff, decide_eq_false_iff_not, decide_eq_false_iff_not]
  constructor
  · rintro rfl
    rw [(byte_mem_encodeChar_iff (by decide)).1 hb, hfeed] at hc
    cases hc
  · rintro rfl
    rw [(byte_mem_encodeChar_iff (by decide)).1 hb, hreturn] at hc
    cases hc

/-- A byte is no line end if it satisfies what no line end does. -/
theorem isLineEnd_eq_false {p : UInt8 → Bool} (hfeed : p (byte '\n') = false)
    (hreturn : p (byte '\r') = false) {b : UInt8} (hb : p b) : isLineEnd b = false := by
  rw [isLineEnd, Bool.or_eq_false_iff, decide_eq_false_iff_not, decide_eq_false_iff_not]
  constructor
  · rintro rfl
    rw [hfeed] at hb
    cases hb
  · rintro rfl
    rw [hreturn] at hb
    cases hb

theorem length_encodeChar_of_decodeNext {b : UInt8} {rest : Bytes} {c : Char} {width : Nat}
    (hnext : decodeNext (b :: rest) = .char c width) : (encodeChar c).length = width := by
  rw [← take_of_decodeNext hnext, List.length_take_of_le (width_of_decodeNext hnext).2]

theorem ne_of_isLineEnd_eq_false {b : UInt8} (h : isLineEnd b = false) :
    b ≠ byte '\n' ∧ b ≠ byte '\r' := by
  rw [isLineEnd, Bool.or_eq_false_iff, decide_eq_false_iff_not, decide_eq_false_iff_not] at h
  exact h

/-- What a scanner has found, of which `size` bytes lie behind, goes on without a line end. -/
def Scan.StaysOnLine {α : Type} (size : Nat) (bytes : Bytes) : Scan α → Prop
  | .found _ n => IsFlat (bytes.take (n - size))
  | _ => True

namespace Scan.StaysOnLine

variable {α : Type} {x : Scan α}

theorem found_of_le {value : α} {n size : Nat} (h : n ≤ size) (bytes : Bytes) :
    (Scan.found value n).StaysOnLine size bytes := by
  rw [Scan.StaysOnLine, Nat.sub_eq_zero_of_le h]
  exact isFlat_nil

/-- More bytes in front. -/
theorem append {front back : Bytes} {size : Nat} (hfront : IsFlat front)
    (h : x.StaysOnLine (size + front.length) back) : x.StaysOnLine size (front ++ back) := by
  cases x with
  | found value n =>
    rw [Scan.StaysOnLine, List.take_append, Nat.sub_sub]
    exact (hfront.take _).append h
  | wait | fault => trivial

/-- A character in front that is of a kind of which no line end is. -/
theorem char {p : Char → Bool} (hfeed : p '\n' = false) (hreturn : p '\r' = false) {b : UInt8}
    {rest : Bytes} {c : Char} {size width : Nat} (hnext : decodeNext (b :: rest) = .char c width)
    (hc : p c) (h : x.StaysOnLine (size + width) (rest.drop (width - 1))) :
    x.StaysOnLine size (b :: rest) := by
  have hpos := (width_of_decodeNext hnext).1
  have hchar := take_of_decodeNext hnext
  have hdrop : (b :: rest).drop width = rest.drop (width - 1) := by
    obtain ⟨m, rfl⟩ := Nat.exists_eq_add_of_le' hpos
    rfl
  rw [← List.take_append_drop width (b :: rest), hchar, hdrop]
  refine append (isFlat_encodeChar hfeed hreturn hc) ?_
  rwa [length_encodeChar_of_decodeNext hnext]

end Scan.StaysOnLine

open Scan.StaysOnLine (found_of_le)

/-! ## Names and labels -/

theorem staysOnLine_scanLabel (read : List Char) (size : Nat) (bytes : Bytes) :
    (scanLabel read size bytes).StaysOnLine size bytes := by
  fun_induction scanLabel read size bytes with
  | case1 => trivial
  | case2 => trivial
  | case3 => trivial
  | case4 read size b rest c width hnext hread hc ih =>
    exact ih.char (p := fun c => isLabelStart c || c.isDigit) (by decide) (by decide) hnext hc
  | case5 => trivial
  | case6 read size b rest withoutDot c width hnext hread hc ih =>
    refine ih.char (p := fun c => isNameChar c || c = '.') (by decide) (by decide) hnext ?_
    simp only [Bool.or_eq_true, Bool.and_eq_true] at hc ⊢
    exact hc.imp_right And.left
  | case7 => exact found_of_le (Nat.sub_le _ _) _

theorem staysOnLine_closeAtEnd (draft : LocalName.Draft) (bytes : Bytes) :
    draft.closeAtEnd.StaysOnLine draft.size bytes :=
  found_of_le (Nat.sub_le _ _) _

theorem staysOnLine_scanLocal (ended : Bool) (draft : LocalName.Draft) (bytes : Bytes) :
    (scanLocal ended draft bytes).StaysOnLine draft.size bytes := by
  -- A backslash and what it may stand before.
  have hescape : ∀ (p : Char → Bool), p '\n' = false → p '\r' = false → ∀ e : UInt8,
      p (Char.ofNat e.toNat) → IsFlat [byte '\\', e] := by
    intro p hfeed hreturn e he
    have hflat : isLineEnd e = false :=
      isLineEnd_eq_false (p := fun e => p (Char.ofNat e.toNat)) hfeed hreturn he
    exact isFlat_cons (by decide) (isFlat_cons hflat isFlat_nil)
  fun_induction scanLocal ended draft bytes with
  | case1 => exact staysOnLine_closeAtEnd _ _
  | case2 => trivial
  | case3 draft h l rest digits hdigits ih =>
    have hall : ∀ c ∈ digits, Hex.isDigit c := List.all_eq_true.1 hdigits
    have hdigit : ∀ {b : UInt8}, Hex.isDigit (Char.ofNat b.toNat) → isLineEnd b = false :=
      isLineEnd_eq_false (p := fun b => Hex.isDigit (Char.ofNat b.toNat)) (by decide) (by decide)
    have hflat : IsFlat [byte '%', h, l] :=
      isFlat_cons (by decide) (isFlat_cons (hdigit (hall _ (by simp [digits])))
        (isFlat_cons (hdigit (hall _ (by simp [digits]))) isFlat_nil))
    exact Scan.StaysOnLine.append hflat ih
  | case4 => trivial
  | case5 => trivial
  | case6 draft e rest c hc hne ih =>
    exact Scan.StaysOnLine.append (hescape isEscapable (by decide) (by decide) e hc) ih
  | case7 draft e rest c hc hc' hne ih =>
    exact Scan.StaysOnLine.append (hescape isDoubtfulEscape (by decide) (by decide) e hc') ih
  | case8 => trivial
  | case9 => trivial
  | case10 => exact staysOnLine_closeAtEnd _ _
  | case11 => trivial
  | case12 => trivial
  | case13 draft b rest hb hb' c width hnext hc ih =>
    refine ih.char (p := fun c => c = ':' || isLabelStart c || c.isDigit || isNameChar c)
      (by decide) (by decide) hnext ?_
    revert hc
    split <;> simp only [Bool.or_eq_true] <;> tauto
  | case14 draft b rest hb hb' c width hnext hc hdot ih =>
    rw [Bool.and_eq_true] at hdot
    have hwidth := length_encodeChar_of_decodeNext hnext
    rw [of_decide_eq_true hdot.1] at hwidth
    subst hwidth
    exact ih.char (p := (· = '.')) (by decide) (by decide) hnext hdot.1
  | case15 => exact found_of_le (Nat.sub_le _ _) _

theorem staysOnLine_scanVariable (ended : Bool) (bytes : Bytes) :
    (scanVariable ended bytes).StaysOnLine 1 bytes := by
  have h := staysOnLine_scanLocal ended .empty bytes
  unfold scanVariable
  cases hlocal : scanLocal ended .empty bytes with
  | found name size =>
    rw [hlocal] at h
    dsimp only
    split
    · trivial
    · rw [Scan.StaysOnLine, Nat.add_sub_cancel_left]
      exact h
  | wait | fault => trivial

theorem staysOnLine_scanAfterColon (ended : Bool) (space : List Char) (size : Nat) (bytes : Bytes) :
    (scanAfterColon ended space size bytes).StaysOnLine size bytes := by
  have h := staysOnLine_scanLocal ended .empty bytes
  unfold scanAfterColon
  split
  · trivial
  · cases hlocal : scanLocal ended .empty bytes with
    | found name more =>
      rw [hlocal] at h
      dsimp only
      rw [Scan.StaysOnLine, Nat.add_sub_cancel_left]
      exact h
    | wait | fault => trivial

theorem staysOnLine_closeKeyword (read : List Char) (size : Nat) (bytes : Bytes) :
    (closeKeyword read size).StaysOnLine size bytes :=
  found_of_le (Nat.sub_le _ _) _

theorem staysOnLine_scanName (ended : Bool) (read : List Char) (size : Nat) (bytes : Bytes)
    (hread : read.isEmpty → size = 0) :
    (scanName ended read size bytes).StaysOnLine size bytes := by
  fun_induction scanName ended read size bytes with
  | case1 => exact staysOnLine_closeKeyword _ _ _
  | case2 => trivial
  | case3 => trivial
  | case4 => trivial
  | case5 => exact staysOnLine_closeKeyword _ _ _
  | case6 => trivial
  | case7 read size b rest width hnext =>
    have hwidth := length_encodeChar_of_decodeNext hnext
    subst hwidth
    exact (staysOnLine_scanAfterColon ended read.reverse (size + 1) rest).char
      (p := (· = ':')) (by decide) (by decide) hnext (by decide)
  | case8 read size b rest c width hnext hc hempty hstart ih =>
    obtain rfl := hread hempty
    refine Scan.StaysOnLine.char (by decide) (by decide) hnext hstart ?_
    rw [Nat.zero_add]
    exact ih (by simp)
  | case9 => trivial
  | case10 read size b rest c width hnext hc hempty hchar ih =>
    exact (ih (by simp)).char (p := fun c => isNameChar c || c = '.') (by decide) (by decide) hnext hchar
  | case11 => exact staysOnLine_closeKeyword _ _ _

/-! ## Numbers -/

theorem isFlat_sign (bytes : Bytes) : IsFlat (bytes.take (signWidth bytes)) := by
  cases bytes with
  | nil => exact isFlat_nil
  | cons b rest =>
    rw [signWidth]
    split
    · next hb =>
      exact isFlat_cons (isLineEnd_eq_false (p := isSignByte) (by decide) (by decide) hb) isFlat_nil
    · exact isFlat_nil

theorem isFlat_digits (bytes : Bytes) : IsFlat (bytes.take (digitCount bytes)) := by
  rw [digitCount, ← List.prefix_iff_eq_take.1 (List.takeWhile_prefix isDigitByte)]
  intro b hb
  exact isLineEnd_eq_false (p := isDigitByte) (by decide) (by decide) (List.mem_takeWhile_imp hb)

theorem isFlat_take_add {bytes : Bytes} {n m : Nat} (h : IsFlat (bytes.take n))
    (hmore : IsFlat ((bytes.drop n).take m)) : IsFlat (bytes.take (n + m)) := by
  rw [List.take_add]
  exact h.append hmore

theorem staysOnLine_closePlain {number : Bytes} {p : NumberParts}
    (h : IsFlat (number.take p.size)) : (closePlain number p).StaysOnLine 0 number := by
  have hwhole : IsFlat (number.take (p.sign + p.whole)) := by
    have hle : p.sign + p.whole ≤ p.size := Nat.le_add_right _ _
    rw [← Nat.min_eq_left hle, ← List.take_take]
    exact h.take _
  unfold closePlain
  dsimp only
  split
  · exact h
  · split
    · trivial
    · exact hwhole

theorem staysOnLine_closeDouble {ended : Bool} {number rest : Bytes} {p : NumberParts} {e : UInt8}
    (h : IsFlat (number.take p.size)) (hrest : number.drop p.size = e :: rest)
    (he : isLineEnd e = false) : (closeDouble ended number p rest).StaysOnLine 0 number := by
  unfold closeDouble
  dsimp only
  repeat' split
  · trivial
  · trivial
  · trivial
  · rw [Scan.StaysOnLine, Nat.sub_zero, Nat.add_assoc, Nat.add_assoc]
    refine isFlat_take_add h ?_
    rw [hrest, Nat.add_comm 1, List.take_succ_cons]
    exact isFlat_cons he (isFlat_take_add (isFlat_sign rest) (isFlat_digits _))

theorem staysOnLine_scanNumber (ended : Bool) (number : Bytes) :
    (scanNumber ended number).StaysOnLine 0 number := by
  have hwhole : IsFlat (number.take (signWidth number + digitCount (number.drop (signWidth number)))) :=
    isFlat_take_add (isFlat_sign number) (isFlat_digits _)
  unfold scanNumber
  dsimp only
  rcases hrest : (number.drop (signWidth number)).drop
    (digitCount (number.drop (signWidth number))) with _ | ⟨b, rest⟩
  · dsimp only
    split
    · exact staysOnLine_closePlain hwhole
    · trivial
  · dsimp only
    generalize hp : (if b = byte '.' then some (digitCount rest) else none) = fraction
    have hsize : IsFlat (number.take (NumberParts.size ⟨signWidth number,
        digitCount (number.drop (signWidth number)), fraction⟩)) := by
      rw [← hp]
      split
      · next hb =>
        rw [NumberParts.size, Option.elim_some]
        refine isFlat_take_add hwhole ?_
        rw [← List.drop_drop, hrest, List.take_succ_cons, hb]
        exact isFlat_cons (by decide) (isFlat_digits rest)
      · exact hwhole
    split
    · split
      · exact staysOnLine_closePlain hsize
      · trivial
    · next e after hafter =>
      split
      · next he =>
        refine staysOnLine_closeDouble hsize hafter ?_
        exact isLineEnd_eq_false (p := fun e => e = byte 'e' || e = byte 'E') (by decide)
          (by decide) (by simpa using he)
      · exact staysOnLine_closePlain hsize

/-! ## Tags, IRIs and marks -/

theorem staysOnLine_scanLanguage (bytes : Bytes) : (scanLanguage bytes).StaysOnLine 1 bytes := by
  rcases bytes with _ | ⟨b, rest⟩
  · trivial
  · unfold scanLanguage
    dsimp only
    split
    · trivial
    · cases hlength : tagLength? false 0 (b :: rest) with
      | none => trivial
      | some n =>
        obtain ⟨cs, htake, hcs⟩ := exists_chars_of_tagLength? hlength
        dsimp only
        split
        · rw [Scan.StaysOnLine, Nat.add_sub_cancel_left]
          rw [Nat.sub_zero] at htake
          rw [htake]
          intro b hb
          obtain ⟨c, hc, hb⟩ := List.mem_flatMap.1 hb
          exact isFlat_encodeChar (p := fun c => c.isAlpha || c = '-') (by decide) (by decide)
            (List.all_eq_true.1 hcs c hc) b hb
        · trivial

/-- The escapes of an IRI are letters and digits. -/
theorem isFlat_escape {bytes : Bytes} {c : Char} {width : Nat}
    (h : scanEscape false bytes = .found c width) : IsFlat (bytes.take (width - 1)) := by
  obtain ⟨e, digits, later, rfl, rfl, hdigits, hagain⟩ := exists_digits_of_scanEscape h
  have hdigit : IsFlat digits := fun b hb =>
    isLineEnd_eq_false (p := isHexByte) (by decide) (by decide) (List.all_eq_true.1 hdigits b hb)
  have hletter : isLineEnd e = false := by
    unfold scanEscape at h
    dsimp only at h
    split at h
    · next he => exact isLineEnd_eq_false (p := (· = byte 'u')) (by decide) (by decide) (by simp [he])
    · split at h
      · next he =>
        exact isLineEnd_eq_false (p := (· = byte 'U')) (by decide) (by decide) (by simp [he])
      · rw [if_neg Bool.false_ne_true] at h
        cases h
  have hwidth : 2 + digits.length - 1 = digits.length + 1 := by omega
  rw [hwidth, List.take_succ_cons, List.take_left]
  exact isFlat_cons hletter hdigit

/-- The bytes of an IRI have no line end that its content has not. -/
theorem isFlat_of_scanIriText {read bytes content : Bytes} {size n : Nat}
    (h : scanIriText read size bytes = .found content n) (hcontent : IsFlat content) :
    IsFlat read ∧ IsFlat (bytes.take (n - size)) := by
  fun_induction scanIriText read size bytes with
  | case1 => cases h
  | case2 read size rest =>
    cases h
    refine ⟨fun b hb => hcontent b (List.mem_reverse.2 hb), ?_⟩
    rw [Nat.add_sub_cancel_left]
    exact isFlat_cons (by decide) isFlat_nil
  | case3 => cases h
  | case4 read size rest c width hescape hne ih =>
    obtain ⟨hread, hlater⟩ := ih h
    refine ⟨fun b hb => hread b (List.mem_append_right _ hb), ?_⟩
    have hfits := fits_scanEscape false rest
    rw [hescape] at hfits
    have hle := le_width_of_scanEscape hescape
    have hlength : (byte '\\' :: rest.take (width - 1)).length = width := by
      rw [List.length_cons, List.length_take_of_le (by change width ≤ _ at hfits; omega)]
      omega
    have hx : (Scan.found content n).StaysOnLine (size + (byte '\\' :: rest.take (width - 1)).length)
        (rest.drop (width - 1)) := by
      rw [hlength]
      exact hlater
    have happend := hx.append (isFlat_cons (by decide) (isFlat_escape hescape))
    rw [List.cons_append, List.take_append_drop] at happend
    exact happend
  | case5 => cases h
  | case6 read size b rest hb hb' ih =>
    obtain ⟨hread, hlater⟩ := ih h
    refine ⟨fun b hb => hread b (List.mem_cons_of_mem _ hb), ?_⟩
    have hflat : IsFlat [b] := isFlat_cons (hread b List.mem_cons_self) isFlat_nil
    exact Scan.StaysOnLine.append (x := .found content n) hflat hlater

theorem staysOnLine_scanIri (base : Option Iri) (bytes : Bytes) :
    (scanIri base bytes).StaysOnLine 1 bytes := by
  unfold scanIri
  split
  · trivial
  · trivial
  · next content size hscan =>
    split
    · trivial
    · next hfault =>
      dsimp only
      split
      · next i hi =>
        have hchars : (Utf8.decodeLossy content).toList.all Iri.isIriChar := by
          cases base with
          | none => exact Iri.all_isIriChar_of_ofChars hi
          | some base => exact Iri.all_isIriChar_of_resolve hi
        obtain ⟨text, rfl⟩ := fault?_eq_none_iff.1 hfault
        rw [decodeLossy_encode] at hchars
        refine (isFlat_of_scanIriText hscan fun b hb => ?_).2
        obtain ⟨c, hc, hb⟩ := List.mem_flatMap.1 hb
        exact isFlat_encodeChar (p := Iri.isIriChar) (by decide) (by decide)
          (List.all_eq_true.1 hchars c hc) b hb
      · trivial

theorem staysOnLine_scanAngle (base : Option Iri) (bytes : Bytes) :
    (scanAngle base bytes).StaysOnLine 1 bytes := by
  rcases bytes with _ | ⟨b, rest⟩
  · trivial
  · unfold scanAngle
    dsimp only
    split
    · next hb =>
      rw [hb]
      exact isFlat_cons (by decide) isFlat_nil
    · exact staysOnLine_scanIri base (b :: rest)

theorem staysOnLine_scanUnderscore (bytes : Bytes) :
    (scanUnderscore bytes).StaysOnLine 1 bytes := by
  rcases bytes with _ | ⟨b, rest⟩
  · trivial
  · unfold scanUnderscore
    dsimp only
    split
    · next hb =>
      rw [hb]
      exact Scan.StaysOnLine.append (isFlat_cons (by decide) isFlat_nil)
        (staysOnLine_scanLabel [] 2 rest)
    · trivial

theorem staysOnLine_scanMark {second : UInt8} (hsecond : isLineEnd second = false)
    (long short : Mark) (bytes : Bytes) :
    (scanMark second long short bytes).StaysOnLine 1 bytes := by
  rcases bytes with _ | ⟨b, rest⟩
  · trivial
  · unfold scanMark
    dsimp only
    split
    · next hb =>
      rw [hb]
      exact isFlat_cons hsecond isFlat_nil
    · exact isFlat_nil

theorem staysOnLine_scanDot (ended : Bool) (bytes : Bytes) :
    (scanDot ended bytes).StaysOnLine 0 (byte '.' :: bytes) := by
  have hdot : (Scan.found (Token.mark .dot) 1).StaysOnLine 0 (byte '.' :: bytes) :=
    isFlat_cons (by decide) isFlat_nil
  unfold scanDot
  split
  · split
    · exact hdot
    · trivial
  · split
    · exact staysOnLine_scanNumber ended _
    · exact hdot

/-! ## Strings -/

/-- What a scanner has found, of which `size` bytes lie behind, ends with this byte. -/
def Scan.EndsIn {α : Type} (last : UInt8) (size : Nat) (bytes : Bytes) : Scan α → Prop
  | .found _ n => ∃ inside rest, bytes = inside ++ last :: rest ∧ n = size + inside.length + 1
  | _ => True

theorem Scan.EndsIn.append {α : Type} {x : Scan α} {last : UInt8} {front back : Bytes} {size : Nat}
    (h : x.EndsIn last (size + front.length) back) : x.EndsIn last size (front ++ back) := by
  cases x with
  | found value n =>
    obtain ⟨inside, rest, rfl, rfl⟩ := h
    refine ⟨front ++ inside, rest, by rw [List.append_assoc], ?_⟩
    rw [List.length_append]
    omega
  | wait | fault => trivial

theorem endsIn_faultToQuote {α : Type} (quote last : UInt8) (cause : Token.Fault)
    (offset size n : Nat) (bytes bytes' : Bytes) :
    (faultToQuote quote cause offset size bytes : Scan α).EndsIn last n bytes' := by
  unfold faultToQuote
  split <;> trivial

/-- Behind an escape a string goes on. -/
theorem Scan.EndsIn.escape {α : Type} {x : Scan α} {last b : UInt8} {stretch rest : Bytes}
    {c : Char} {size width : Nat} (hescape : scanEscape true rest = .found c width)
    (h : x.EndsIn last (size + stretch.length + width) (rest.drop (width - 1))) :
    x.EndsIn last size (stretch ++ b :: rest) := by
  have hfits := fits_scanEscape true rest
  rw [hescape] at hfits
  change width ≤ 1 + rest.length at hfits
  obtain ⟨e, digits, later, -, hwidth, -⟩ := exists_digits_of_scanEscape hescape
  have hsplit : stretch ++ b :: rest = (stretch ++ b :: rest.take (width - 1)) ++ rest.drop (width - 1) := by
    rw [List.append_assoc, List.cons_append, List.take_append_drop]
  have hlength : (stretch ++ b :: rest.take (width - 1)).length = stretch.length + width := by
    rw [List.length_append, List.length_cons, List.length_take_of_le (by omega)]
    omega
  rw [hsplit]
  refine Scan.EndsIn.append ?_
  rw [hlength, ← Nat.add_assoc]
  exact h

theorem endsIn_scanShort (quote : UInt8) (read : List Char) (size : Nat) (bytes : Bytes) :
    (scanShort quote read size bytes).EndsIn quote size bytes := by
  induction hn : bytes.length using Nat.strongRecOn generalizing read size bytes with
  | _ n ih =>
    cases hstretch : bytes.dropWhile (isPlainInShort quote) with
    | nil =>
      rw [scanShort_nil hstretch]
      trivial
    | cons b rest =>
      have hlt := length_lt_of_dropWhile hstretch
      have hbytes := List.takeWhile_append_dropWhile (p := isPlainInShort quote) (l := bytes)
      rw [hstretch] at hbytes
      rw [scanShort_eq hstretch]
      generalize bytes.takeWhile (isPlainInShort quote) = stretch at hbytes ⊢
      split
      · trivial
      · cases Utf8.fault? stretch with
        | some fault => trivial
        | none =>
          dsimp only
          split
          · next hb => exact ⟨stretch, rest, by rw [← hbytes, hb], rfl⟩
          · split
            · cases hescape : scanEscape true rest with
              | wait => trivial
              | fault => exact endsIn_faultToQuote _ _ _ _ _ _ _ _
              | found c width =>
                rw [← hbytes]
                refine Scan.EndsIn.escape hescape ?_
                exact ih _ (by rw [List.length_drop]; omega) _ _ _ rfl
            · exact endsIn_faultToQuote _ _ _ _ _ _ _ _

theorem endsIn_scanLong (quote : UInt8) (read : List Char) (size : Nat) (bytes : Bytes) :
    (scanLong quote read size bytes).EndsIn quote size bytes := by
  induction hn : bytes.length using Nat.strongRecOn generalizing read size bytes with
  | _ n ih =>
    cases hstretch : bytes.dropWhile (isPlainInLong quote) with
    | nil =>
      rw [scanLong_nil hstretch]
      trivial
    | cons b rest =>
      have hlt := length_lt_of_dropWhile hstretch
      have hbytes := List.takeWhile_append_dropWhile (p := isPlainInLong quote) (l := bytes)
      rw [hstretch] at hbytes
      rw [scanLong_eq hstretch]
      generalize bytes.takeWhile (isPlainInLong quote) = stretch at hbytes ⊢
      cases Utf8.fault? stretch with
      | some fault => trivial
      | none =>
        dsimp only
        split
        · cases hescape : scanEscape true rest with
          | wait => trivial
          | fault => trivial
          | found c width =>
            rw [← hbytes]
            refine Scan.EndsIn.escape hescape ?_
            exact ih _ (by rw [List.length_drop]; omega) _ _ _ rfl
        · split
          · trivial
          · split
            · next hclose =>
              refine ⟨stretch ++ [b, quote], rest.drop 2, ?_, ?_⟩
              · have hrest := List.take_append_drop 2 rest
                rw [hclose] at hrest
                rw [← hbytes, ← hrest]
                simp
              · simp only [List.length_append, List.length_cons, List.length_nil]
                omega
            · rw [← hbytes]
              have hnext := ih rest.length (by omega) (read ++ (Utf8.decodeLossy stretch).toList
                ++ [Char.ofNat quote.toNat]) (size + stretch.length + 1) rest rfl
              have hsplit : stretch ++ b :: rest = (stretch ++ [b]) ++ rest := by simp
              rw [hsplit]
              refine Scan.EndsIn.append ?_
              rw [List.length_append, List.length_singleton, ← Nat.add_assoc]
              exact hnext

/-! ## Tokens -/

/-- Whether bytes have no line feed in the second place and no carriage return in the last. -/
structure IsSteady (token : Bytes) : Prop where
  second : (token.drop 1).head? ≠ some (byte '\n')
  last : token.getLast? ≠ some (byte '\r')

theorem IsFlat.isSteady {token : Bytes} (h : IsFlat token) : IsSteady token where
  second hhead :=
    (ne_of_isLineEnd_eq_false (h _ (List.mem_of_mem_drop (List.mem_of_head? hhead)))).1 rfl
  last hlast := (ne_of_isLineEnd_eq_false (h _ (List.mem_of_getLast? hlast))).2 rfl

/-- What is found on one line is steady. -/
def Scan.IsSteady {α : Type} (bytes : Bytes) : Scan α → Prop
  | .found _ n => Trig.IsSteady (bytes.take n)
  | _ => True

theorem Scan.StaysOnLine.isSteady {α : Type} {x : Scan α} {bytes : Bytes}
    (h : x.StaysOnLine 0 bytes) : x.IsSteady bytes := by
  cases x with
  | found value n => exact IsFlat.isSteady h
  | wait | fault => trivial

/-- A token of one line, by what comes behind its first byte. -/
theorem Scan.StaysOnLine.isSteady_cons {α : Type} {x : Scan α} {b : UInt8} {rest : Bytes}
    (h : x.StaysOnLine 1 rest) (hb : isLineEnd b = false) : x.IsSteady (b :: rest) :=
  have hcons : x.StaysOnLine 0 ([b] ++ rest) := .append (isFlat_cons hb isFlat_nil) h
  hcons.isSteady

theorem isLineEnd_of_opensToken {b : UInt8} (hb : opensToken b) : isLineEnd b = false :=
  isLineEnd_eq_false (by decide) (by decide) hb

theorem isLineEnd_of_doubleMark? {b second : UInt8} {long short : Mark}
    (h : doubleMark? b = some (second, long, short)) : isLineEnd second = false := by
  unfold doubleMark? at h
  repeat' split at h
  all_goals cases h
  all_goals decide

/-- A token in quotes. -/
theorem isSteady_quoted {quote : UInt8} (hquote : isLineEnd quote = false) {inside : Bytes}
    (hinside : inside.head? ≠ some (byte '\n')) : IsSteady (quote :: (inside ++ [quote])) where
  second := by
    cases inside with
    | nil => exact fun h => (ne_of_isLineEnd_eq_false hquote).1 (Option.some.inj h)
    | cons b inside => exact hinside
  last := by
    rw [← List.cons_append, List.getLast?_concat]
    exact fun h => (ne_of_isLineEnd_eq_false hquote).2 (Option.some.inj h)

theorem isSteady_of_endsIn {α : Type} {x : Scan α} {quote : UInt8} (front : Bytes) {rest : Bytes}
    (hquote : isLineEnd quote = false) (h : x.EndsIn quote (front.length + 1) rest)
    (hhead : (front ++ rest).head? ≠ some (byte '\n')) : x.IsSteady (quote :: (front ++ rest)) := by
  cases x with
  | found value n =>
    obtain ⟨inside, later, rfl, rfl⟩ := h
    have htake : (quote :: (front ++ (inside ++ quote :: later))).take
        (front.length + 1 + inside.length + 1) = quote :: ((front ++ inside) ++ [quote]) := by
      have hlength : front.length + 1 + inside.length + 1 = (front ++ inside).length + 1 + 1 := by
        rw [List.length_append]
        omega
      rw [hlength, List.take_succ_cons, ← List.append_assoc, List.take_length_add_append]
      rfl
    rw [Scan.IsSteady, htake]
    refine isSteady_quoted hquote ?_
    intro hfeed
    apply hhead
    rw [← List.append_assoc, List.head?_append, hfeed]
    rfl
  | wait | fault => trivial

/-- No short string starts with a line end. -/
theorem isSteady_scanShort {quote : UInt8} (hquote : isLineEnd quote = false) (bytes : Bytes) :
    (scanShort quote [] 1 bytes).IsSteady (quote :: bytes) := by
  by_cases hhead : bytes.head? = some (byte '\n')
  · obtain ⟨rest, rfl⟩ : ∃ rest, bytes = byte '\n' :: rest :=
      ⟨bytes.tail, (List.cons_head?_tail hhead).symm⟩
    have hplain : isPlainInShort quote (byte '\n') = false := by
      simp [isPlainInShort, isLineEnd]
    have hne := (ne_of_isLineEnd_eq_false hquote).1.symm
    rw [scanShort_eq (List.dropWhile_cons_of_neg (by simp [hplain])),
      List.takeWhile_cons_of_neg (by simp [hplain]), if_neg hne]
    split
    · trivial
    · rw [show Utf8.fault? [] = none by decide +kernel]
      dsimp only
      rw [if_neg (by decide)]
      unfold faultToQuote
      split <;> trivial
  · exact isSteady_of_endsIn [] hquote (endsIn_scanShort quote [] 1 bytes) hhead

theorem isSteady_scanString {quote : UInt8} (hquote : isLineEnd quote = false) (bytes : Bytes) :
    (scanString quote bytes).IsSteady (quote :: bytes) := by
  unfold scanString
  split
  · trivial
  · split
    · next hb =>
      rw [hb]
      split
      · trivial
      · next b rest =>
        split
        · next hb =>
          rw [hb]
          exact isSteady_of_endsIn [quote, quote] hquote (endsIn_scanLong quote [] 3 rest) fun h =>
            (ne_of_isLineEnd_eq_false hquote).1 (Option.some.inj h)
        · exact isSteady_scanShort hquote _
    · exact isSteady_scanShort hquote _

/-- No token has a line feed as its second byte or a carriage return as its last. -/
theorem isSteady_scan (base : Option Iri) (ended : Bool) {b : UInt8} (hb : opensToken b)
    (rest : Bytes) : (scan base ended b rest).IsSteady (b :: rest) := by
  have hline := isLineEnd_of_opensToken hb
  unfold scan
  split
  · exact (isFlat_cons hline isFlat_nil).isSteady
  · split
    · next second long short hdouble =>
      exact (staysOnLine_scanMark (isLineEnd_of_doubleMark? hdouble) _ _ rest).isSteady_cons hline
    · split
      · exact (staysOnLine_scanAngle base rest).isSteady_cons hline
      · split
        · exact (staysOnLine_scanUnderscore rest).isSteady_cons hline
        · split
          · exact isSteady_scanString hline rest
          · split
            · exact (staysOnLine_scanLanguage rest).isSteady_cons hline
            · split
              · next hdot =>
                rw [hdot]
                exact (staysOnLine_scanDot ended rest).isSteady
              · split
                · exact (staysOnLine_scanNumber ended (b :: rest)).isSteady
                · split
                  · exact (staysOnLine_scanVariable ended rest).isSteady_cons hline
                  · exact (staysOnLine_scanName ended [] 0 (b :: rest) fun _ => rfl).isSteady

end TidyTrig.Trig
