import TidyTrig.Proofs.Trig.Feeding
import TidyTrig.Proofs.Trig.LineEnds

/-!
# What a parser does not wait for

A parser waits for more bytes where they could make a difference. They make none to a string or an
IRI that is closed, nor to any other token if an angle bracket follows and is not the last byte:
no name, label, number or tag reaches past one. So what the parser reads of a whole document before
an angle bracket it reads when it was given no more than that (`Takes.of_append`).
-/

namespace TidyTrig.Trig

open Utf8

/-! ## Angle brackets behind what was read -/

/-- An angle bracket stands in bytes and is not the last of them. -/
def HasAngle (bytes : Bytes) : Prop := byte '<' ∈ bytes.dropLast

theorem hasAngle_append {back : Bytes} (h : HasAngle back) (front : Bytes) :
    HasAngle (front ++ back) := by
  have hne : back ≠ [] := by
    rintro rfl
    cases h
  rw [HasAngle, List.dropLast_append_of_ne_nil hne]
  exact List.mem_append_right _ h

/-- An IRI does not end with its opening bracket. -/
theorem hasAngle_iri (inside rest : Bytes) :
    HasAngle (byte '<' :: (inside ++ [byte '>']) ++ rest) := by
  rw [List.cons_append, HasAngle, List.dropLast_cons_of_ne_nil (by simp)]
  exact List.mem_cons_self

theorem HasAngle.mem {bytes : Bytes} (h : HasAngle bytes) : byte '<' ∈ bytes :=
  List.dropLast_subset bytes h

theorem HasAngle.ne_nil {bytes : Bytes} (h : HasAngle bytes) : bytes ≠ [] := by
  rintro rfl
  cases h

theorem HasAngle.of_append {front back : Bytes} (h : HasAngle (front ++ back))
    (hfront : byte '<' ∉ front) : HasAngle back := by
  by_cases hne : back = []
  · rw [hne, List.append_nil] at h
    exact absurd h.mem hfront
  · rw [HasAngle, List.dropLast_append_of_ne_nil hne] at h
    exact (List.mem_append.1 h).resolve_left hfront

theorem HasAngle.of_cons {b : UInt8} {bytes : Bytes} (h : HasAngle (b :: bytes))
    (hb : b ≠ byte '<') : HasAngle bytes :=
  have happend : HasAngle ([b] ++ bytes) := h
  happend.of_append fun hmem => hb (List.mem_singleton.1 hmem).symm

/-- Behind a character. -/
theorem HasAngle.of_decodeNext {b : UInt8} {rest : Bytes} {c : Char} {width : Nat}
    (h : HasAngle (b :: rest)) (hnext : decodeNext (b :: rest) = .char c width) (hc : c ≠ '<') :
    HasAngle (rest.drop (width - 1)) := by
  have hpos := (width_of_decodeNext hnext).1
  have hdrop : (b :: rest).drop width = rest.drop (width - 1) := by
    obtain ⟨m, rfl⟩ := Nat.exists_eq_add_of_le' hpos
    rfl
  rw [← List.take_append_drop width (b :: rest), take_of_decodeNext hnext, hdrop] at h
  exact h.of_append fun hmem => hc ((byte_mem_encodeChar_iff (by decide)).1 hmem)

/-- No angle bracket is part of a character that is cut off. -/
theorem le_of_decodeNext_incomplete {bytes : Bytes} (h : decodeNext bytes = .incomplete) :
    ∀ b ∈ bytes, 0x80 ≤ b := by
  have htwo : ∀ lead rest, decodeTwo lead rest = .incomplete → rest = [] := by
    intro lead rest h
    unfold decodeTwo at h
    grind
  have hthree : ∀ lead least greatest rest, 0x80 ≤ least →
      decodeThree lead least greatest rest = .incomplete → ∀ b ∈ rest, 0x80 ≤ b := by
    intro lead least greatest rest hleast h
    unfold decodeThree at h
    grind
  have hfour : ∀ lead least greatest rest, 0x80 ≤ least →
      decodeFour lead least greatest rest = .incomplete → ∀ b ∈ rest, 0x80 ≤ b := by
    intro lead least greatest rest hleast h
    unfold decodeFour isContinuation at h
    grind
  cases bytes with
  | nil => exact List.forall_mem_nil _
  | cons b rest =>
    unfold decodeNext at h
    grind

theorem not_hasAngle_of_incomplete {bytes : Bytes} (h : decodeNext bytes = .incomplete) :
    ¬HasAngle bytes := by
  intro hangle
  exact absurd (le_of_decodeNext_incomplete h _ hangle.mem) (by decide)

/-! ## Names and labels -/

theorem Scan.found_ne_wait {α : Type} {value : α} {n : Nat} : Scan.found value n ≠ .wait := by
  intro h
  cases h

theorem Scan.fault_ne_wait {α : Type} {cause : Token.Fault} {offset n : Nat} :
    (Scan.fault cause offset n : Scan α) ≠ .wait := by
  intro h
  cases h

theorem scanLabel_ne_wait (read : List Char) (size : Nat) {bytes : Bytes} (h : HasAngle bytes) :
    scanLabel read size bytes ≠ .wait := by
  -- No character of a label is a bracket, so that each call has it still ahead.
  fun_induction scanLabel read size bytes with
  | case1 => cases h
  | case2 read size b rest hnext => exact absurd h (not_hasAngle_of_incomplete hnext)
  | case3 => exact Scan.fault_ne_wait
  | case4 read size b rest c width hnext hread hc ih =>
    refine ih (h.of_decodeNext hnext ?_)
    rintro rfl
    exact absurd hc (by decide)
  | case5 => exact Scan.fault_ne_wait
  | case6 read size b rest withoutDot c width hnext hread hc ih =>
    refine ih (h.of_decodeNext hnext ?_)
    rintro rfl
    have hname : isNameChar '<' = false := by decide
    simp [hname] at hc
  | case7 => exact Scan.found_ne_wait

theorem scanLocal_ne_wait (draft : LocalName.Draft) {bytes : Bytes} (h : HasAngle bytes) :
    scanLocal false draft bytes ≠ .wait := by
  have hdigit : ∀ b : UInt8, Hex.isDigit (Char.ofNat b.toNat) → b ≠ byte '<' := by
    rintro b hb rfl
    exact absurd hb (by decide)
  have hescape : ∀ b : UInt8,
      isEscapable (Char.ofNat b.toNat) || isDoubtfulEscape (Char.ofNat b.toNat) → b ≠ byte '<' := by
    rintro b hb rfl
    exact absurd hb (by decide)
  fun_induction scanLocal false draft bytes with
  | case1 _ hended => cases hended
  | case2 => cases h
  | case3 draft h₁ h₂ rest digits hdigits ih =>
    have hall : ∀ c ∈ digits, Hex.isDigit c := List.all_eq_true.1 hdigits
    have hfirst := hdigit h₁ (hall _ (by simp [digits]))
    have hsecond := hdigit h₂ (hall _ (by simp [digits]))
    exact ih (((h.of_cons (by decide)).of_cons hfirst).of_cons hsecond)
  | case4 => exact Scan.fault_ne_wait
  | case5 draft rest hshort =>
    -- The two digits after a percent sign are not there yet.
    rcases rest with _ | ⟨b, _ | ⟨b', rest⟩⟩
    · cases h
    · exact absurd (List.mem_singleton.1 h) (by decide)
    · exact absurd rfl (hshort b b' rest)
  | case6 draft e rest c hc hne ih =>
    exact ih ((h.of_cons (by decide)).of_cons (hescape e (by simp [c, hc])))
  | case7 draft e rest c hc hc' hne ih =>
    exact ih ((h.of_cons (by decide)).of_cons (hescape e (by simp [c, hc'])))
  | case8 => exact Scan.fault_ne_wait
  | case9 => cases h
  | case10 _ _ _ _ _ _ hended => cases hended
  | case11 draft b rest hb hb' hnext => exact absurd h (not_hasAngle_of_incomplete hnext)
  | case12 => exact Scan.fault_ne_wait
  | case13 draft b rest hb hb' c width hnext hc ih =>
    refine ih (h.of_decodeNext hnext ?_)
    rintro rfl
    revert hc
    split <;> decide
  | case14 draft b rest hb hb' c width hnext hc hdot ih =>
    refine ih (h.of_decodeNext hnext ?_)
    rintro rfl
    rw [Bool.and_eq_true] at hdot
    exact absurd hdot.1 (by decide)
  | case15 => exact Scan.found_ne_wait

theorem scanAfterColon_ne_wait (space : List Char) (size : Nat) {bytes : Bytes}
    (h : HasAngle bytes) : scanAfterColon false space size bytes ≠ .wait := by
  have hlocal := scanLocal_ne_wait .empty h
  unfold scanAfterColon
  split
  · exact Scan.fault_ne_wait
  · cases hscan : scanLocal false .empty bytes with
    | wait => exact absurd hscan hlocal
    | found | fault => nofun

theorem scanVariable_ne_wait {bytes : Bytes} (h : HasAngle bytes) :
    scanVariable false bytes ≠ .wait := by
  have hlocal := scanLocal_ne_wait .empty h
  unfold scanVariable
  cases hscan : scanLocal false .empty bytes with
  | wait => exact absurd hscan hlocal
  | found name size =>
    dsimp only
    split <;> nofun
  | fault => exact Scan.fault_ne_wait

theorem scanName_ne_wait (read : List Char) (size : Nat) {bytes : Bytes} (h : HasAngle bytes) :
    scanName false read size bytes ≠ .wait := by
  fun_induction scanName false read size bytes with
  | case1 _ _ hended => cases hended
  | case2 => cases h
  | case3 read size b rest hnext => exact absurd h (not_hasAngle_of_incomplete hnext)
  | case4 _ _ _ _ _ hended => exact absurd rfl hended
  | case5 _ _ _ _ _ hended => exact absurd rfl hended
  | case6 => exact Scan.fault_ne_wait
  | case7 read size b rest width hnext =>
    have hwidth := length_encodeChar_of_decodeNext hnext
    subst hwidth
    exact scanAfterColon_ne_wait _ _ (h.of_decodeNext hnext (by decide))
  | case8 read size b rest c width hnext hc hread hstart ih =>
    refine ih (h.of_decodeNext hnext ?_)
    rintro rfl
    exact absurd hstart (by decide)
  | case9 => exact Scan.fault_ne_wait
  | case10 read size b rest c width hnext hc hread hchar ih =>
    refine ih (h.of_decodeNext hnext ?_)
    rintro rfl
    exact absurd hchar (by decide)
  | case11 => exact Scan.found_ne_wait

/-! ## Numbers -/

/-- The bytes that numbers are made of. -/
def isNumberByte (b : UInt8) : Bool :=
  isDigitByte b || isSignByte b || b = byte '.' || b = byte 'e' || b = byte 'E'

/-- The parts of the number in front, up to its exponent. -/
def numberParts (number : Bytes) : NumberParts :=
  let sign := signWidth number
  let whole := digitCount (number.drop sign)
  ⟨sign, whole,
    match number.drop (sign + whole) with
    | b :: rest => if b = byte '.' then some (digitCount rest) else none
    | [] => none⟩

/-- A number goes on with an exponent, or ends before what follows its parts. -/
theorem scanNumber_eq (ended : Bool) (number : Bytes) :
    scanNumber ended number =
      match number.drop (numberParts number).size with
      | [] => if ended then closePlain number (numberParts number) else .wait
      | e :: rest =>
        if e = byte 'e' || e = byte 'E' then closeDouble ended number (numberParts number) rest
        else closePlain number (numberParts number) := by
  unfold scanNumber numberParts
  dsimp only
  rw [List.drop_drop]
  cases hrest : number.drop (signWidth number + digitCount (number.drop (signWidth number))) with
  | nil => simp [NumberParts.size, hrest]
  | cons b rest => rfl

theorem all_take_signWidth (bytes : Bytes) :
    (bytes.take (signWidth bytes)).all isNumberByte := by
  cases bytes with
  | nil => rfl
  | cons b rest =>
    rw [signWidth]
    split
    · next hb => simp [isNumberByte, hb]
    · rfl

theorem all_take_digitCount (bytes : Bytes) :
    (bytes.take (digitCount bytes)).all isNumberByte := by
  rw [digitCount, ← List.prefix_iff_eq_take.1 (List.takeWhile_prefix isDigitByte)]
  apply List.all_eq_true.2
  intro b hb
  simp [isNumberByte, List.mem_takeWhile_imp hb]

theorem all_take_add {p : UInt8 → Bool} {bytes : Bytes} {n m : Nat} (h : (bytes.take n).all p)
    (hmore : ((bytes.drop n).take m).all p) : (bytes.take (n + m)).all p := by
  rw [List.take_add, List.all_append, h, hmore]
  rfl

theorem all_take_numberParts (number : Bytes) :
    (number.take (numberParts number).size).all isNumberByte := by
  have hwhole : (number.take (signWidth number
      + digitCount (number.drop (signWidth number)))).all isNumberByte :=
    all_take_add (all_take_signWidth number) (all_take_digitCount _)
  unfold numberParts NumberParts.size
  dsimp only
  cases hrest : number.drop (signWidth number + digitCount (number.drop (signWidth number))) with
  | nil => exact hwhole
  | cons b rest =>
    dsimp only
    split
    · next hb =>
      refine all_take_add hwhole ?_
      rw [hrest, Option.elim_some, List.take_succ_cons, List.all_cons, all_take_digitCount, hb]
      rfl
    · exact hwhole

/-- Up to the end of an exponent. -/
theorem all_take_exponent {number rest : Bytes} {e : UInt8}
    (hrest : number.drop (numberParts number).size = e :: rest)
    (he : e = byte 'e' || e = byte 'E') :
    (number.take ((numberParts number).size + 1 + signWidth rest
      + digitCount (rest.drop (signWidth rest)))).all isNumberByte := by
  have hexponent : (rest.take (signWidth rest + digitCount (rest.drop (signWidth rest)))).all
      isNumberByte :=
    all_take_add (all_take_signWidth rest) (all_take_digitCount _)
  rw [Nat.add_assoc, Nat.add_assoc]
  refine all_take_add (all_take_numberParts number) ?_
  rw [hrest, Nat.add_comm 1, List.take_succ_cons, List.all_cons, hexponent, Bool.and_true]
  rw [Bool.or_eq_true, decide_eq_true_eq, decide_eq_true_eq] at he
  rcases he with rfl | rfl <;> decide

theorem scanNumber_ne_wait {number : Bytes} (h : HasAngle number) :
    scanNumber false number ≠ .wait := by
  -- All bytes of a number that is open are part of it.
  have hall : ∀ n, (number.take n).all isNumberByte → n < number.length := by
    intro n hn
    by_contra hle
    rw [List.take_of_length_le (Nat.le_of_not_lt hle)] at hn
    exact absurd (List.all_eq_true.1 hn _ h.mem) (by decide)
  have hlt := hall _ (all_take_numberParts number)
  rw [scanNumber_eq]
  cases hrest : number.drop (numberParts number).size with
  | nil =>
    rw [List.drop_eq_nil_iff] at hrest
    omega
  | cons e rest =>
    dsimp only
    split
    · next he =>
      have hlength := congrArg List.length hrest
      rw [List.length_drop, List.length_cons] at hlength
      have hmore := hall _ (all_take_exponent hrest he)
      have hopen : (rest.drop (signWidth rest + digitCount (rest.drop (signWidth rest)))).isEmpty
          = false := by
        rw [List.isEmpty_eq_false_iff, ne_eq, List.drop_eq_nil_iff]
        omega
      unfold closeDouble
      dsimp only
      rw [hopen]
      split
      · next hwait => cases hwait
      · split
        · nofun
        · split <;> nofun
    · unfold closePlain
      dsimp only
      split
      · nofun
      · split <;> nofun

/-! ## Tags and marks -/

theorem tagLength?_ne_none {inEmptyBlock : Bool} {count : Nat} {bytes : Bytes}
    (h : byte '<' ∈ bytes) : tagLength? inEmptyBlock count bytes ≠ none := by
  fun_induction tagLength? inEmptyBlock count bytes with
  | case1 => cases h
  | case2 _ count b rest halpha ih =>
    refine ih ((List.mem_cons.1 h).resolve_left ?_)
    rintro rfl
    exact absurd halpha (by decide)
  | case3 => exact Option.some_ne_none _
  | case4 _ count rest halpha hblock ih =>
    exact ih ((List.mem_cons.1 h).resolve_left (by decide))
  | case5 => exact Option.some_ne_none _

theorem scanLanguage_ne_wait {bytes : Bytes} (h : HasAngle bytes) : scanLanguage bytes ≠ .wait := by
  cases bytes with
  | nil => cases h
  | cons b rest =>
    unfold scanLanguage
    dsimp only
    split
    · nofun
    · cases hlength : tagLength? false 0 (b :: rest) with
      | none => exact absurd hlength (tagLength?_ne_none h.mem)
      | some n =>
        dsimp only
        split <;> nofun

theorem scanMark_ne_wait (second : UInt8) (long short : Mark) {bytes : Bytes} (h : bytes ≠ []) :
    scanMark second long short bytes ≠ .wait := by
  cases bytes with
  | nil => exact absurd rfl h
  | cons b rest =>
    unfold scanMark
    dsimp only
    split <;> nofun

theorem scanDot_ne_wait {bytes : Bytes} (h : HasAngle bytes) : scanDot false bytes ≠ .wait := by
  cases bytes with
  | nil => cases h
  | cons b rest =>
    unfold scanDot
    dsimp only
    split
    · exact scanNumber_ne_wait (hasAngle_append h [byte '.'])
    · nofun

theorem scanUnderscore_ne_wait {bytes : Bytes} (h : HasAngle bytes) :
    scanUnderscore bytes ≠ .wait := by
  cases bytes with
  | nil => cases h
  | cons b rest =>
    unfold scanUnderscore
    dsimp only
    split
    · next hb =>
      subst hb
      exact scanLabel_ne_wait _ _ (h.of_cons (by decide))
    · nofun

/-! ## What is closed -/

/-- An IRI that ends within the bytes so far is read. -/
theorem scanIri_of_append {base : Option Iri} {bytes more : Bytes} {t : Token} {n : Nat}
    (h : scanIri base (bytes ++ more) = .found t n) (hn : n ≤ bytes.length + 1) :
    scanIri base bytes = .found t n := by
  obtain ⟨inside, rest, hbytes, rfl, -, hagain⟩ := of_scanIri h
  obtain ⟨later, rfl⟩ : inside ++ [byte '>'] <+: bytes := by
    refine List.prefix_of_prefix_length_le ?_ (List.prefix_append bytes more) ?_
    · exact ⟨rest, by rw [hbytes, List.append_assoc]; rfl⟩
    · rw [List.length_append]
      exact Nat.le_of_succ_le_succ hn
  rw [List.append_assoc]
  exact hagain later

/-- A quote that ends a string is not among bytes that a string holds as they are. -/
theorem lt_of_endsIn {p : UInt8 → Bool} {quote : UInt8} (hquote : p quote = false)
    {bytes more : Bytes} (hplain : bytes.dropWhile p = []) {t : Token} {n size : Nat}
    (h : (Scan.found t n).EndsIn quote size (bytes ++ more)) : size + bytes.length < n := by
  obtain ⟨inside, rest, hbytes, rfl⟩ := h
  by_contra hle
  have hprefix : inside ++ [quote] <+: bytes := by
    refine List.prefix_of_prefix_length_le ?_ (List.prefix_append bytes more) ?_
    · exact ⟨rest, by rw [hbytes, List.append_assoc]; rfl⟩
    · rw [List.length_append, List.length_singleton]
      omega
  have hmem : quote ∈ bytes := hprefix.subset (List.mem_append_right _ (List.mem_singleton_self _))
  rw [List.dropWhile_eq_nil_iff] at hplain
  rw [hplain quote hmem] at hquote
  cases hquote

/-- An escape that ends within the bytes so far is read. -/
theorem scanEscape_of_append {bytes more : Bytes} {c : Char} {width : Nat}
    (h : scanEscape true (bytes ++ more) = .found c width) (hwidth : width ≤ bytes.length + 1) :
    0 < width ∧ scanEscape true bytes = .found c width
      ∧ (bytes ++ more).drop (width - 1) = bytes.drop (width - 1) ++ more := by
  obtain ⟨e, digits, later, hbytes, rfl, -, hagain⟩ := exists_digits_of_scanEscape h
  obtain ⟨rest, rfl⟩ : e :: digits <+: bytes := by
    refine List.prefix_of_prefix_length_le ?_ (List.prefix_append bytes more) ?_
    · exact ⟨later, hbytes.symm⟩
    · rw [List.length_cons]
      omega
  refine ⟨by omega, hagain rest, List.drop_append_of_le_length ?_⟩
  rw [List.length_append, List.length_cons]
  omega

theorem scanShort_of_append {quote : UInt8} (hquote : isLineEnd quote = false) {read : List Char}
    {size n : Nat} {bytes more : Bytes} {t : Token}
    (h : scanShort quote read size (bytes ++ more) = .found t n) (hn : n ≤ size + bytes.length) :
    scanShort quote read size bytes = .found t n := by
  induction hlength : bytes.length using Nat.strongRecOn generalizing read size bytes with
  | _ m ih =>
    have hends := endsIn_scanShort quote read size (bytes ++ more)
    rw [h] at hends
    cases hstretch : bytes.dropWhile (isPlainInShort quote) with
    | nil => exact absurd (lt_of_endsIn (by simp [isPlainInShort]) hstretch hends) (by omega)
    | cons b rest =>
      have hsplit := length_of_takeWhile_dropWhile hstretch
      rw [scanShort_eq (dropWhile_append_of_cons hstretch more),
        takeWhile_append_of_cons hstretch] at h
      rw [scanShort_eq hstretch]
      generalize bytes.takeWhile (isPlainInShort quote) = stretch at h hsplit ⊢
      by_cases hb : isLineEnd b
      · -- No string is found on a line that has ended.
        have hq : b ≠ quote := by
          rintro rfl
          exact absurd hb (Bool.eq_false_iff.1 hquote)
        have hback : b ≠ byte '\\' := by
          rintro rfl
          exact absurd hb (by decide)
        split at h
        · cases h
        · split at h
          · cases h
          · dsimp only at h
            unfold faultToQuote at h
            split at h <;> cases h
      · rw [Bool.not_eq_true] at hb
        rw [hb, Bool.false_and, if_neg Bool.false_ne_true] at h ⊢
        split at h
        · cases h
        · dsimp only at h ⊢
          split at h
          · next hq =>
            rw [if_pos hq]
            exact h
          · next hq =>
            rw [if_neg hq]
            split at h
            · next hback =>
              rw [if_pos hback]
              split at h
              · cases h
              · next c width hescape =>
                have hlater := endsIn_scanShort quote (read ++ (decodeLossy stretch).toList ++ [c])
                  (size + stretch.length + width) ((rest ++ more).drop (width - 1))
                rw [h] at hlater
                obtain ⟨inside, tail, -, hsize⟩ := hlater
                obtain ⟨hpos, hfound, hdrop⟩ := scanEscape_of_append hescape (by omega)
                rw [hfound]
                rw [hdrop] at h
                exact ih _ (by rw [List.length_drop]; omega) h
                  (by rw [List.length_drop]; omega) rfl
              · unfold faultToQuote at h
                split at h <;> cases h
            · unfold faultToQuote at h
              split at h <;> cases h

/-- A string that has come to its last byte but one waits for more. -/
theorem two_le_of_scanLong {quote : UInt8} {read : List Char} {size n : Nat} {bytes : Bytes}
    {t : Token} (h : scanLong quote read size bytes = .found t n) : 2 ≤ bytes.length := by
  cases hstretch : bytes.dropWhile (isPlainInLong quote) with
  | nil =>
    rw [scanLong_nil hstretch] at h
    cases h
  | cons b rest =>
    have hlength := length_of_takeWhile_dropWhile hstretch
    cases rest with
    | cons b' rest =>
      rw [List.length_cons] at hlength
      omega
    | nil =>
      rw [scanLong_eq hstretch] at h
      split at h
      · cases h
      · dsimp only at h
        split at h <;> cases h

theorem scanLong_of_append {quote : UInt8} {read : List Char} {size n : Nat} {bytes more : Bytes}
    {t : Token} (h : scanLong quote read size (bytes ++ more) = .found t n)
    (hn : n ≤ size + bytes.length) : scanLong quote read size bytes = .found t n := by
  induction hlength : bytes.length using Nat.strongRecOn generalizing read size bytes with
  | _ m ih =>
    have hends := endsIn_scanLong quote read size (bytes ++ more)
    rw [h] at hends
    cases hstretch : bytes.dropWhile (isPlainInLong quote) with
    | nil => exact absurd (lt_of_endsIn (by simp [isPlainInLong]) hstretch hends) (by omega)
    | cons b rest =>
      have hsplit := length_of_takeWhile_dropWhile hstretch
      rw [scanLong_eq (dropWhile_append_of_cons hstretch more),
        takeWhile_append_of_cons hstretch] at h
      rw [scanLong_eq hstretch]
      generalize bytes.takeWhile (isPlainInLong quote) = stretch at h hsplit ⊢
      split at h
      · cases h
      · dsimp only at h ⊢
        split at h
        · next hback =>
          rw [if_pos hback]
          split at h
          · cases h
          · next c width hescape =>
            have hlater := endsIn_scanLong quote (read ++ (decodeLossy stretch).toList ++ [c])
              (size + stretch.length + width) ((rest ++ more).drop (width - 1))
            rw [h] at hlater
            obtain ⟨inside, tail, -, hsize⟩ := hlater
            obtain ⟨hpos, hfound, hdrop⟩ := scanEscape_of_append hescape (by omega)
            rw [hfound]
            rw [hdrop] at h
            exact ih _ (by rw [List.length_drop]; omega) h (by rw [List.length_drop]; omega) rfl
          · cases h
        · next hback =>
          rw [if_neg hback]
          split at h
          · cases h
          · split at h
            · next hclose =>
              cases h
              have htake : rest.take 2 = (rest ++ more).take 2 := by
                rw [List.take_append_of_le_length (by omega)]
              rw [if_neg (by rw [List.length_take]; omega), htake, if_pos hclose]
            · next hclose =>
              -- The string goes on in what is there, so there are two bytes to look at.
              have hfound := ih rest.length (by omega) h (by omega) rfl
              have htwo := two_le_of_scanLong hfound
              rw [List.take_append_of_le_length htwo] at hclose
              rw [if_neg (by rw [List.length_take]; omega), if_neg hclose]
              exact hfound

theorem endsIn_scanString (quote : UInt8) (bytes : Bytes) :
    (scanString quote bytes).EndsIn quote 1 bytes := by
  unfold scanString
  split
  · trivial
  · split
    · next hb =>
      split
      · trivial
      · next b' rest =>
        split
        · next hb' =>
          rw [hb, hb']
          show (scanLong quote [] 3 rest).EndsIn quote 1 ([quote, quote] ++ rest)
          exact (endsIn_scanLong quote [] 3 rest).append
        · exact endsIn_scanShort quote [] 1 _
    · exact endsIn_scanShort quote [] 1 _

/-- A string that ends before the last byte so far is read. After two quotes the next byte shows
whether the string goes on. -/
theorem scanString_of_append {quote : UInt8} (hquote : isLineEnd quote = false) {bytes more : Bytes}
    {t : Token} {n : Nat} (h : scanString quote (bytes ++ more) = .found t n)
    (hn : n ≤ bytes.length) : scanString quote bytes = .found t n := by
  have hshort : ∀ {bytes : Bytes}, n ≤ bytes.length →
      scanShort quote [] 1 (bytes ++ more) = .found t n → scanShort quote [] 1 bytes = .found t n :=
    fun hn h => scanShort_of_append hquote h (by omega)
  have htwo : 2 ≤ bytes.length := by
    have hends := endsIn_scanString quote (bytes ++ more)
    rw [h] at hends
    obtain ⟨inside, rest, -, rfl⟩ := hends
    omega
  unfold scanString at h ⊢
  rcases bytes with _ | ⟨b, _ | ⟨b', rest⟩⟩
  · cases htwo
  · exact absurd htwo (Nat.not_succ_le_self 1)
  · simp only [List.cons_append] at h ⊢
    split at h
    · next hb =>
      rw [if_pos hb]
      split at h
      · next hb' =>
        rw [if_pos hb']
        simp only [List.length_cons] at hn
        exact scanLong_of_append h (by omega)
      · next hb' =>
        rw [if_neg hb']
        exact hshort hn h
    · next hb =>
      rw [if_neg hb]
      exact hshort hn h

/-! ## Tokens in front of an angle bracket -/

theorem scanAngle_of_append {base : Option Iri} {bytes more : Bytes} {t : Token} {n : Nat}
    (h : scanAngle base (bytes ++ more) = .found t n) (hn : n ≤ bytes.length + 1) :
    scanAngle base bytes = .found t n := by
  have htwo : 2 ≤ n := by
    unfold scanAngle at h
    split at h
    · cases h
    · split at h
      · cases h
        exact Nat.le_refl 2
      · obtain ⟨inside, rest, -, rfl, -⟩ := of_scanIri h
        exact Nat.le_add_left 2 _
  cases bytes with
  | nil => exact absurd (Nat.le_trans htwo hn) (Nat.not_succ_le_self 1)
  | cons b rest =>
    unfold scanAngle at h ⊢
    rw [List.cons_append] at h
    dsimp only at h ⊢
    split at h
    · next hb =>
      rw [if_pos hb]
      exact h
    · next hb =>
      rw [if_neg hb]
      rw [← List.cons_append] at h
      exact scanIri_of_append h hn

theorem scan_string {quote : UInt8} (hquote : quote = byte '\x22' ∨ quote = byte '\x27')
    (base : Option Iri) (ended : Bool) (rest : Bytes) :
    scan base ended quote rest = scanString quote rest := by
  rcases hquote with rfl | rfl
  · exact scan_quote base ended rest
  · rw [scan_of_noMark (by decide) (by decide), if_neg (by decide), if_neg (by decide),
      if_pos (by decide)]

/-- A token that ends within the bytes so far is read if an angle bracket follows, or if it starts
with one. -/
theorem scan_of_append {base : Option Iri} {b : UInt8} {rest more : Bytes} {t : Token} {n : Nat}
    (h : scan base true b (rest ++ more) = .found t n) (hn : n ≤ rest.length + 1)
    (hangle : b = byte '<' ∨ n ≤ rest.length ∧ HasAngle rest) :
    scan base false b rest = .found t n := by
  by_cases hless : b = byte '<'
  · subst hless
    rw [scan_less] at h ⊢
    exact scanAngle_of_append h hn
  · obtain ⟨hn, hrest⟩ := hangle.resolve_left hless
    have hwait : scan base false b rest ≠ .wait := by
      by_cases hquote : b = byte '\x22' ∨ b = byte '\x27'
      · have hline : isLineEnd b = false := by
          rcases hquote with rfl | rfl <;> decide
        rw [scan_string hquote] at h ⊢
        rw [scanString_of_append hline h hn]
        nofun
      · unfold scan
        rw [if_neg hless]
        split
        · nofun
        · split
          · exact scanMark_ne_wait _ _ _ hrest.ne_nil
          · rw [if_neg (show ¬(b = byte '\x22' || b = byte '\x27') by simpa using hquote)]
            split
            · exact scanUnderscore_ne_wait hrest
            · split
              · exact scanLanguage_ne_wait hrest
              · split
                · exact scanDot_ne_wait hrest
                · split
                  · exact scanNumber_ne_wait (hasAngle_append hrest [b])
                  · split
                    · exact scanVariable_ne_wait hrest
                    · exact scanName_ne_wait _ _ (hasAngle_append hrest [b])
    rcases isKept_scan base true b rest more with hkept | hkept
    · exact absurd hkept hwait
    · rw [← hkept, h]

/-! ## Blanks -/

/-- Blanks that end within the bytes so far are skipped. -/
theorem Cursor.skipBlank_of_append {ended inComment : Bool} {c c' : Cursor}
    {bytes rest more : Bytes} {b : UInt8}
    (h : skipBlank ended inComment c (bytes ++ more) = some (c', b :: (rest ++ more))) :
    skipBlank false inComment c bytes = some (c', b :: rest) := by
  -- No more is left than there was.
  have hlong : ∀ {inComment : Bool} {c : Cursor},
      skipBlank ended inComment c more ≠ some (c', b :: (rest ++ more)) := by
    intro inComment c hskip
    have hle := length_le_of_skipBlank hskip
    rw [List.length_cons, List.length_append] at hle
    omega
  fun_induction skipBlank false inComment c bytes with
  | case1 => exact absurd h hlong
  | case2 => exact absurd h hlong
  | case3 inComment c tail ih =>
    rw [List.cons_append, skipBlank_lineFeed] at h
    exact ih h
  | case4 _ _ hended => cases hended
  | case5 inComment c =>
    rw [List.cons_append, List.nil_append, skipBlank.eq_def] at h
    dsimp only at h
    rw [if_neg (by decide), if_pos rfl] at h
    split at h
    · split at h <;> cases h
    · split at h
      · have hle := length_le_of_skipBlank h
        simp only [List.length_cons, List.length_append] at hle
        omega
      · exact absurd h hlong
  | case6 inComment c tail hne ih =>
    rw [List.cons_append, List.cons_append, skipBlank.eq_def] at h
    dsimp only at h
    rw [if_neg (by decide), if_pos rfl, if_pos rfl] at h
    exact ih h
  | case7 inComment c b' tail hne hne' ih =>
    rw [List.cons_append, List.cons_append, skipBlank.eq_def] at h
    dsimp only at h
    rw [if_neg hne', if_pos rfl, if_neg hne] at h
    exact ih h
  | case8 inComment c b' tail hne hne' hblank ih =>
    rw [List.cons_append, skipBlank.eq_def] at h
    dsimp only at h
    rw [if_neg hne, if_neg hne', if_pos hblank] at h
    exact ih h
  | case9 inComment c tail hne hne' hblank ih =>
    rw [List.cons_append, skipBlank.eq_def] at h
    dsimp only at h
    rw [if_neg (by decide), if_neg (by decide), if_neg hblank, if_pos rfl] at h
    exact ih h
  | case10 inComment c b' tail hne hne' hblank hhash =>
    rw [List.cons_append, skipBlank.eq_def] at h
    dsimp only at h
    rw [if_neg hne, if_neg hne', if_neg hblank, if_neg hhash] at h
    obtain ⟨rfl, hsame⟩ := Prod.mk.inj (Option.some.inj h)
    obtain ⟨rfl, htail⟩ := List.cons.inj hsame
    rw [List.append_cancel_right htail]

/-! ## Steps of the parser -/

namespace Parser

variable {labels : Nat → String} {ended : Bool} {p p' : Parser} {gap : Bytes} {b : UInt8}
  {tail : Bytes} {t : Token}

/-- The parser skips blanks and comments, and takes the token that the bytes behind them spell
without a fault. -/
structure Takes (labels : Nat → String) (ended : Bool) (p : Parser) (gap : Bytes) (b : UInt8)
    (tail : Bytes) (t : Token) (p' : Parser) : Prop where
  unread : p.unread = gap ++ b :: (tail ++ p'.unread)
  cursor : ∃ cursor, p.cursor.skipBlank ended false p.unread
      = some (cursor, b :: (tail ++ p'.unread)) ∧ p'.cursor = cursor.through (b :: tail)
  scan : scan p.recognition.base ended b (tail ++ p'.unread) = .found t (b :: tail).length
  recognition : p'.recognition = (p.recognition.accept labels t).cleared
  faults : (p.recognition.accept labels t).faults = []

theorem Takes.next? (h : Takes labels ended p gap b tail t p') :
    ∃ events, p.next? labels ended = some (events, p') := by
  obtain ⟨cursor, hskip, hcursor⟩ := h.cursor
  unfold Parser.next? readToken
  rw [hskip]
  dsimp only
  rw [h.scan, ← List.cons_append]
  dsimp only
  rw [List.take_left, List.length_cons, Nat.add_sub_cancel, List.drop_left]
  refine ⟨_, congrArg some (Prod.ext rfl ?_)⟩
  rw [← hcursor, ← h.recognition]

theorem Takes.drain (h : Takes labels ended p gap b tail t p') :
    (p.drain labels ended).2 = (p'.drain labels ended).2 := by
  obtain ⟨events, hnext⟩ := h.next?
  rw [drain_of_some labels hnext]

/-- What is taken of a whole document is taken of less of it, if an angle bracket follows or the
token starts with one. -/
theorem Takes.of_append (h : Takes labels true p gap b tail t p') {back more : Bytes}
    (hp' : p'.unread = back ++ more) (hangle : b = byte '<' ∨ HasAngle back) :
    Takes labels false { p with unread := gap ++ b :: (tail ++ back) } gap b tail t
      { p' with unread := back } := by
  have hunread := h.unread
  have hscan := h.scan
  obtain ⟨cursor, hskip, hcursor⟩ := h.cursor
  rw [hp', ← List.append_assoc] at hunread hscan hskip
  rw [hunread, ← List.cons_append, ← List.append_assoc, List.cons_append] at hskip
  refine ⟨rfl, ⟨cursor, Cursor.skipBlank_of_append hskip, hcursor⟩, scan_of_append hscan ?_ ?_,
    h.recognition, h.faults⟩
  · rw [List.length_cons, List.length_append]
    omega
  · refine hangle.imp_right fun hback => ⟨?_, hasAngle_append hback tail⟩
    have := List.length_pos_iff.2 hback.ne_nil
    rw [List.length_cons, List.length_append]
    omega

end Parser

end TidyTrig.Trig
