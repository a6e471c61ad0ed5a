import TidyTrig.Proofs.Text.Utf8
import TidyTrig.Trig.Scan

/-!
# Scanners and the end of a piece

A scanner sees a document up to the end of the piece that was given so far. `isKept_scan` says that
what it answers there, unless it waits, it still answers when more bytes come and when the
document ends: a token that could go on is never cut. `fits_scan` says that an answer never
reaches past the bytes that were looked at.
-/

namespace TidyTrig.Trig

open Utf8

namespace Scan

variable {α : Type}

/-- Every answer but waiting is kept. -/
def IsKept (x y : Scan α) : Prop := x = .wait ∨ y = x

/-- What is said lies within so many bytes. -/
def Fits (length : Nat) : Scan α → Prop
  | .wait => True
  | .found _ size => size ≤ length
  | .fault _ offset size => offset ≤ length ∧ size ≤ length

theorem IsKept.eq_of_found {x y : Scan α} {value : α} {size : Nat} (h : x.IsKept y)
    (hx : x = .found value size) : y = .found value size := by
  rcases h with h | h
  · rw [h] at hx
    cases hx
  · rw [h, hx]

theorem Fits.mono {x : Scan α} {n m : Nat} (h : x.Fits n) (hle : n ≤ m) : x.Fits m := by
  cases x with
  | wait => trivial
  | found value size => exact Nat.le_trans h hle
  | fault cause offset size => exact ⟨Nat.le_trans h.1 hle, Nat.le_trans h.2 hle⟩

end Scan

/-! ## Labels -/

theorem isKept_scanLabel (read : List Char) (size : Nat) (bytes more : Bytes) :
    (scanLabel read size bytes).IsKept (scanLabel read size (bytes ++ more)) := by
  fun_induction scanLabel read size bytes with
  | case1 => exact .inl rfl
  | case2 => exact .inl rfl
  | case3 read size b rest index hnext =>
    rw [List.cons_append, scanLabel, decodeNext_cons_append hnext nofun]
    exact .inr rfl
  | case4 read size b rest c width hnext hread hc ih =>
    rw [List.cons_append, scanLabel, decodeNext_cons_append hnext nofun]
    simp only [hread, hc, if_true]
    rw [drop_append_of_decodeNext hnext]
    exact ih
  | case5 read size b rest c width hnext hread hc =>
    rw [List.cons_append, scanLabel, decodeNext_cons_append hnext nofun]
    simp only [hread, hc, if_true]
    exact .inr rfl
  | case6 read size b rest withoutDot c width hnext hread hc ih =>
    simp only [withoutDot, dite_eq_ite] at hc
    rw [List.cons_append, scanLabel, decodeNext_cons_append hnext nofun]
    simp only [hread, hc, if_true]
    rw [drop_append_of_decodeNext hnext]
    exact ih
  | case7 read size b rest withoutDot ended c width hnext hread hc =>
    simp only [withoutDot, dite_eq_ite] at hc
    rw [List.cons_append, scanLabel, decodeNext_cons_append hnext nofun]
    simp only [hread, hc]
    exact .inr rfl

theorem fits_scanLabel (read : List Char) (size : Nat) (bytes : Bytes) :
    (scanLabel read size bytes).Fits (size + bytes.length) := by
  fun_induction scanLabel read size bytes with
  | case1 => trivial
  | case2 => trivial
  | case3 read size b rest index hnext =>
    have := index_of_decodeNext hnext
    simp only [Scan.Fits, List.length_cons]
    omega
  | case4 read size b rest c width hnext hread hc ih =>
    have := width_of_decodeNext hnext
    refine ih.mono ?_
    simp only [List.length_drop, List.length_cons]
    omega
  | case5 => exact ⟨Nat.zero_le _, Nat.le_add_right _ _⟩
  | case6 read size b rest withoutDot c width hnext hread hc ih =>
    have := width_of_decodeNext hnext
    refine ih.mono ?_
    simp only [List.length_drop, List.length_cons]
    omega
  | case7 =>
    simp only [Scan.Fits]
    omega

/-! ## Local names -/

theorem scanLocal_percent (ended : Bool) (draft : LocalName.Draft) (h l : UInt8) (rest : Bytes) :
    scanLocal ended draft (byte '%' :: h :: l :: rest) =
      if [Char.ofNat h.toNat, Char.ofNat l.toNat].all Hex.isDigit then
        scanLocal ended
          (draft.add ['%', Char.ofNat h.toNat, Char.ofNat l.toNat] false 3) rest
      else .fault (.namePercent h l) draft.size (draft.size + 3) := by
  rw [scanLocal, if_pos rfl]

theorem scanLocal_backslash (ended : Bool) (draft : LocalName.Draft) (e : UInt8) (rest : Bytes) :
    scanLocal ended draft (byte '\\' :: e :: rest) =
      if isEscapable (Char.ofNat e.toNat) then
        scanLocal ended (draft.addEscape (Char.ofNat e.toNat) false) rest
      else if isDoubtfulEscape (Char.ofNat e.toNat) then
        scanLocal ended (draft.addEscape (Char.ofNat e.toNat) true) rest
      else .fault (.nameEscape e) (draft.size + 1) (draft.size + 2) := by
  rw [scanLocal.eq_def]
  dsimp only
  rw [if_neg (by decide), if_pos rfl]

/-- A local name goes on with a character, or ends before it. -/
theorem scanLocal_char (ended : Bool) (draft : LocalName.Draft) {b : UInt8} {rest : Bytes}
    {c : Char} {width : Nat} (hb : b ≠ byte '%') (hb' : b ≠ byte '\\')
    (hnext : decodeNext (b :: rest) = .char c width) :
    scanLocal ended draft (b :: rest) =
      if c = ':' || (if draft.size = 0 then isLabelStart c || c.isDigit else isNameChar c) then
        scanLocal ended (draft.add [c] (c = ':' || isDoubtfulInIri c) width)
          (rest.drop (width - 1))
      else if c = '.' && draft.size ≠ 0 then scanLocal ended draft.addDot (rest.drop (width - 1))
      else draft.close := by
  rw [scanLocal.eq_def]
  dsimp only
  rw [if_neg hb, if_neg hb', hnext]

theorem isKept_scanLocal (ended : Bool) (draft : LocalName.Draft) (bytes more : Bytes) :
    (scanLocal false draft bytes).IsKept (scanLocal ended draft (bytes ++ more)) := by
  fun_induction scanLocal false draft bytes with
  | case1 _ hended => cases hended
  | case2 => exact .inl rfl
  | case3 draft h l rest digits hdigits ih =>
    rw [List.cons_append, List.cons_append, List.cons_append, scanLocal_percent, if_pos hdigits]
    exact ih
  | case4 draft h l rest digits hdigits =>
    rw [List.cons_append, List.cons_append, List.cons_append, scanLocal_percent, if_neg hdigits]
    exact .inr rfl
  | case5 => exact .inl rfl
  | case6 draft e rest c hc hne ih =>
    rw [List.cons_append, List.cons_append, scanLocal_backslash, if_pos hc]
    exact ih
  | case7 draft e rest c hc hc' hne ih =>
    rw [List.cons_append, List.cons_append, scanLocal_backslash, if_neg hc, if_pos hc']
    exact ih
  | case8 draft e rest c hc hc' hne =>
    rw [List.cons_append, List.cons_append, scanLocal_backslash, if_neg hc, if_neg hc']
    exact .inr rfl
  | case9 => exact .inl rfl
  | case10 _ _ _ _ _ _ hended => cases hended
  | case11 => exact .inl rfl
  | case12 draft b rest hb hb' index hnext =>
    rw [List.cons_append, scanLocal.eq_def]
    dsimp only
    rw [if_neg hb, if_neg hb', decodeNext_cons_append hnext nofun]
    exact .inr rfl
  | case13 draft b rest hb hb' c width hnext hc ih =>
    rw [dite_eq_ite] at hc
    rw [List.cons_append, scanLocal_char _ _ hb hb' (decodeNext_cons_append hnext nofun more),
      if_pos hc, drop_append_of_decodeNext hnext]
    exact ih
  | case14 draft b rest hb hb' c width hnext hc hdot ih =>
    rw [dite_eq_ite] at hc
    rw [List.cons_append, scanLocal_char _ _ hb hb' (decodeNext_cons_append hnext nofun more),
      if_neg hc, if_pos hdot, drop_append_of_decodeNext hnext]
    exact ih
  | case15 draft b rest hb hb' c width hnext hc hdot =>
    rw [dite_eq_ite] at hc
    rw [List.cons_append, scanLocal_char _ _ hb hb' (decodeNext_cons_append hnext nofun more),
      if_neg hc, if_neg hdot]
    exact .inr rfl

theorem fits_scanLocal (ended : Bool) (draft : LocalName.Draft) (bytes : Bytes) :
    (scanLocal ended draft bytes).Fits (draft.size + bytes.length) := by
  have hend : ∀ (d : LocalName.Draft) (n : Nat), d.closeAtEnd.Fits (d.size + n) := by
    intro d n
    simp only [LocalName.Draft.closeAtEnd, Scan.Fits]
    omega
  fun_induction scanLocal ended draft bytes with
  | case1 => exact hend _ _
  | case2 => trivial
  | case3 draft h l rest digits hdigits ih =>
    refine ih.mono ?_
    simp only [LocalName.Draft.add, List.length_cons]
    omega
  | case4 =>
    simp only [Scan.Fits, List.length_cons]
    omega
  | case5 => trivial
  | case6 draft e rest c hc hne ih =>
    refine ih.mono ?_
    simp only [LocalName.Draft.addEscape, LocalName.Draft.add, List.length_cons]
    omega
  | case7 draft e rest c hc hc' hne ih =>
    refine ih.mono ?_
    simp only [LocalName.Draft.addEscape, LocalName.Draft.add, List.length_cons]
    omega
  | case8 =>
    simp only [Scan.Fits, List.length_cons]
    omega
  | case9 => trivial
  | case10 => exact hend _ _
  | case11 => trivial
  | case12 draft b rest hb hb' index hnext =>
    have := index_of_decodeNext hnext
    simp only [Scan.Fits, List.length_cons]
    omega
  | case13 draft b rest hb hb' c width hnext hc ih =>
    have := width_of_decodeNext hnext
    refine ih.mono ?_
    simp only [LocalName.Draft.add, List.length_drop, List.length_cons]
    omega
  | case14 draft b rest hb hb' c width hnext hc hdot ih =>
    have := width_of_decodeNext hnext
    refine ih.mono ?_
    simp only [LocalName.Draft.addDot, List.length_drop, List.length_cons]
    omega
  | case15 =>
    simp only [LocalName.Draft.close, Scan.Fits]
    omega

/-! ## Names -/

theorem isKept_scanVariable (ended : Bool) (bytes more : Bytes) :
    (scanVariable false bytes).IsKept (scanVariable ended (bytes ++ more)) := by
  unfold scanVariable
  rcases isKept_scanLocal ended .empty bytes more with h | h
  · rw [h]
    exact .inl rfl
  · rw [h]
    exact .inr rfl

theorem fits_scanVariable (ended : Bool) (bytes : Bytes) :
    (scanVariable ended bytes).Fits (1 + bytes.length) := by
  have h := fits_scanLocal ended .empty bytes
  rw [LocalName.Draft.empty, Nat.zero_add] at h
  unfold scanVariable
  rw [LocalName.Draft.empty]
  revert h
  cases scanLocal ended ⟨[], none, 0, false, 0⟩ bytes with
  | wait => exact fun _ => trivial
  | found name size =>
    intro h
    simp only [Scan.Fits] at h
    dsimp only
    split <;> simp only [Scan.Fits] <;> omega
  | fault cause offset size =>
    intro h
    simp only [Scan.Fits] at h ⊢
    omega

theorem isKept_scanAfterColon (ended : Bool) (space : List Char) (size : Nat)
    (bytes more : Bytes) :
    (scanAfterColon false space size bytes).IsKept
      (scanAfterColon ended space size (bytes ++ more)) := by
  unfold scanAfterColon
  split
  · exact .inr rfl
  · rcases isKept_scanLocal ended .empty bytes more with h | h
    · rw [h]
      exact .inl rfl
    · rw [h]
      exact .inr rfl

theorem fits_scanAfterColon (ended : Bool) (space : List Char) (size : Nat) (bytes : Bytes) :
    (scanAfterColon ended space size bytes).Fits (size + bytes.length) := by
  have h := fits_scanLocal ended .empty bytes
  rw [LocalName.Draft.empty, Nat.zero_add] at h
  unfold scanAfterColon
  rw [LocalName.Draft.empty]
  split
  · simp only [Scan.Fits]
    omega
  · revert h
    cases scanLocal ended ⟨[], none, 0, false, 0⟩ bytes <;> intro h <;>
      simp only [Scan.Fits] at h ⊢ <;> omega

theorem fits_closeKeyword (read : List Char) (size n : Nat) :
    (closeKeyword read size).Fits (size + n) := by
  simp only [closeKeyword, Scan.Fits]
  omega

/-- A name goes on with a character, or ends before it. -/
theorem scanName_char (ended : Bool) (read : List Char) (size : Nat) {b : UInt8} {rest : Bytes}
    {c : Char} {width : Nat} (hnext : decodeNext (b :: rest) = .char c width) :
    scanName ended read size (b :: rest) =
      if c = ':' then scanAfterColon ended read.reverse (size + 1) rest
      else if read.isEmpty then
        if isNameStart c then scanName ended [c] width (rest.drop (width - 1))
        else .fault (.nameStart c) 0 width
      else if isNameChar c || c = '.' then
        scanName ended (c :: read) (size + width) (rest.drop (width - 1))
      else closeKeyword read size := by
  rw [scanName.eq_def]
  dsimp only
  rw [hnext]

theorem isKept_scanName (ended : Bool) (read : List Char) (size : Nat) (bytes more : Bytes) :
    (scanName false read size bytes).IsKept (scanName ended read size (bytes ++ more)) := by
  fun_induction scanName false read size bytes with
  | case1 _ _ hended => cases hended
  | case2 => exact .inl rfl
  | case3 => exact .inl rfl
  | case4 _ _ _ _ _ hended => exact absurd rfl hended
  | case5 _ _ _ _ _ hended => exact absurd rfl hended
  | case6 read size b rest index hnext =>
    rw [List.cons_append, scanName.eq_def]
    dsimp only
    rw [decodeNext_cons_append hnext nofun]
    exact .inr rfl
  | case7 read size b rest width hnext =>
    rw [List.cons_append, scanName_char _ _ _ (decodeNext_cons_append hnext nofun more),
      if_pos rfl]
    exact isKept_scanAfterColon ended read.reverse (size + 1) rest more
  | case8 read size b rest c width hnext hc hread hstart ih =>
    rw [List.cons_append, scanName_char _ _ _ (decodeNext_cons_append hnext nofun more),
      if_neg hc, if_pos hread, if_pos hstart, drop_append_of_decodeNext hnext]
    exact ih
  | case9 read size b rest c width hnext hc hread hstart =>
    rw [List.cons_append, scanName_char _ _ _ (decodeNext_cons_append hnext nofun more),
      if_neg hc, if_pos hread, if_neg hstart]
    exact .inr rfl
  | case10 read size b rest c width hnext hc hread hchar ih =>
    rw [List.cons_append, scanName_char _ _ _ (decodeNext_cons_append hnext nofun more),
      if_neg hc, if_neg hread, if_pos hchar, drop_append_of_decodeNext hnext]
    exact ih
  | case11 read size b rest c width hnext hc hread hchar =>
    rw [List.cons_append, scanName_char _ _ _ (decodeNext_cons_append hnext nofun more),
      if_neg hc, if_neg hread, if_neg hchar]
    exact .inr rfl

theorem fits_scanName (ended : Bool) (read : List Char) (size : Nat) (bytes : Bytes) :
    (scanName ended read size bytes).Fits (size + bytes.length) := by
  fun_induction scanName ended read size bytes with
  | case1 => exact fits_closeKeyword _ _ _
  | case2 => trivial
  | case3 => trivial
  | case4 =>
    simp only [Scan.Fits, List.length_cons]
    omega
  | case5 => exact fits_closeKeyword _ _ _
  | case6 read size b rest index hnext =>
    have := index_of_decodeNext hnext
    simp only [Scan.Fits, List.length_cons]
    omega
  | case7 read size b rest width hnext =>
    refine (fits_scanAfterColon ended read.reverse (size + 1) rest).mono ?_
    simp only [List.length_cons]
    omega
  | case8 read size b rest c width hnext hc hread hstart ih =>
    have := width_of_decodeNext hnext
    refine ih.mono ?_
    simp only [List.length_drop, List.length_cons]
    omega
  | case9 read size b rest c width hnext =>
    have := width_of_decodeNext hnext
    simp only [Scan.Fits, List.length_cons]
    omega
  | case10 read size b rest c width hnext hc hread hchar ih =>
    have := width_of_decodeNext hnext
    refine ih.mono ?_
    simp only [List.length_drop, List.length_cons]
    omega
  | case11 => exact fits_closeKeyword _ _ _

/-! ## Numbers -/

theorem signWidth_append {bytes : Bytes} (h : bytes ≠ []) (more : Bytes) :
    signWidth (bytes ++ more) = signWidth bytes := by
  cases bytes with
  | nil => exact absurd rfl h
  | cons => rfl

theorem signWidth_le (bytes : Bytes) : signWidth bytes ≤ bytes.length := by
  cases bytes with
  | nil => exact Nat.le_refl _
  | cons b rest =>
    rw [signWidth, List.length_cons]
    split <;> omega

theorem digitCount_le (bytes : Bytes) : digitCount bytes ≤ bytes.length :=
  (List.takeWhile_prefix _).length_le

/-- Digits before another byte are all the digits there will be. -/
theorem digitCount_append {bytes : Bytes} (h : bytes.drop (digitCount bytes) ≠ []) (more : Bytes) :
    digitCount (bytes ++ more) = digitCount bytes := by
  rw [digitCount, digitCount, List.takeWhile_append, if_neg]
  intro hall
  exact h (List.drop_eq_nil_of_le (Nat.le_of_eq hall.symm))

theorem isKept_closeDouble (ended : Bool) (number : Bytes) (p : NumberParts) (bytes more : Bytes)
    (hsize : p.size + 1 + bytes.length ≤ number.length) :
    (closeDouble false number p bytes).IsKept
      (closeDouble ended (number ++ more) p (bytes ++ more)) := by
  unfold closeDouble
  dsimp only
  rw [← List.drop_drop]
  by_cases hwait : (bytes.drop (signWidth bytes)).drop (digitCount (bytes.drop (signWidth bytes)))
      = []
  · rw [hwait]
    exact .inl rfl
  · have hne : bytes ≠ [] := by
      rintro rfl
      exact hwait rfl
    have hle := signWidth_le bytes
    have hcount := digitCount_le (bytes.drop (signWidth bytes))
    rw [List.length_drop] at hcount
    rw [signWidth_append hne, List.drop_append_of_le_length hle, digitCount_append hwait,
      ← List.drop_drop, List.drop_append_of_le_length hle,
      List.drop_append_of_le_length (by rw [List.length_drop]; exact hcount),
      List.take_append_of_le_length (by omega)]
    have hmore : (List.drop (digitCount (bytes.drop (signWidth bytes)))
        (bytes.drop (signWidth bytes)) ++ more).isEmpty = false := by
      rw [List.isEmpty_eq_false_iff]
      exact List.append_ne_nil_of_left_ne_nil hwait more
    rw [List.isEmpty_eq_false_iff.2 hwait, hmore, Bool.and_false, Bool.and_false]
    exact .inr rfl

theorem closePlain_append {number : Bytes} {p : NumberParts} (h : p.size ≤ number.length)
    (more : Bytes) : closePlain (number ++ more) p = closePlain number p := by
  have hwhole : p.sign + p.whole ≤ number.length := by
    refine Nat.le_trans ?_ h
    rw [NumberParts.size]
    omega
  unfold closePlain
  dsimp only
  rw [List.take_append_of_le_length h, List.take_append_of_le_length hwhole]

theorem isKept_scanNumber (ended : Bool) (number more : Bytes) :
    (scanNumber false number).IsKept (scanNumber ended (number ++ more)) := by
  unfold scanNumber
  dsimp only
  rcases hrest : (number.drop (signWidth number)).drop
    (digitCount (number.drop (signWidth number))) with _ | ⟨b, rest⟩
  · exact .inl rfl
  · -- A byte stands behind the digits, so what is read later adds none to them.
    have hne : number ≠ [] := by
      rintro rfl
      cases hrest
    have hle := signWidth_le number
    have hcount := digitCount_le (number.drop (signWidth number))
    rw [signWidth_append hne, List.drop_append_of_le_length hle,
      digitCount_append (by rw [hrest]; nofun), List.drop_append_of_le_length hcount, hrest,
      List.cons_append]
    dsimp only
    generalize hw : digitCount (number.drop (signWidth number)) = whole at *
    have hdrop : number.drop (signWidth number + whole) = b :: rest := by
      rw [← List.drop_drop, hrest]
    have hlength : number.length = signWidth number + whole + (rest.length + 1) := by
      have := congrArg List.length hdrop
      rw [List.length_drop, List.length_cons] at this
      rw [List.length_drop] at hcount
      omega
    by_cases hb : b = byte '.'
    · simp only [hb, if_true, NumberParts.size, Option.elim_some]
      have hsize : ∀ n, n ≤ rest.length →
          number.drop (signWidth number + whole + (n + 1)) = rest.drop n := by
        intro n _
        rw [← List.drop_drop, hdrop, List.drop_succ_cons]
      rw [hsize _ (digitCount_le rest)]
      rcases hafter : rest.drop (digitCount rest) with _ | ⟨e, after⟩
      · exact .inl rfl
      · have hdigits := digitCount_le rest
        have hafterLength := congrArg List.length hafter
        rw [List.length_drop, List.length_cons] at hafterLength
        rw [digitCount_append (by rw [hafter]; nofun),
          List.drop_append_of_le_length (by omega), hsize _ hdigits, hafter, List.cons_append]
        dsimp only
        split
        · refine isKept_closeDouble ended number _ after more ?_
          simp only [NumberParts.size, Option.elim_some]
          omega
        · rw [closePlain_append]
          · exact .inr rfl
          · simp only [NumberParts.size, Option.elim_some]
            omega
    · simp only [hb, if_false, NumberParts.size, Option.elim_none, Nat.add_zero]
      rw [List.drop_append_of_le_length (by omega), hdrop, List.cons_append]
      dsimp only
      split
      · refine isKept_closeDouble ended number _ rest more ?_
        simp only [NumberParts.size, Option.elim_none]
        omega
      · rw [closePlain_append]
        · exact .inr rfl
        · simp only [NumberParts.size, Option.elim_none]
          omega

theorem fits_closePlain {number : Bytes} {p : NumberParts} (h : p.size ≤ number.length) :
    (closePlain number p).Fits number.length := by
  have hwhole : p.sign + p.whole ≤ p.size := by
    rw [NumberParts.size]
    omega
  unfold closePlain
  dsimp only
  split
  · exact h
  · split <;> simp only [Scan.Fits] <;> omega

theorem fits_closeDouble (ended : Bool) (number : Bytes) (p : NumberParts) (bytes : Bytes)
    (hsize : p.size + 1 + bytes.length ≤ number.length) :
    (closeDouble ended number p bytes).Fits number.length := by
  have hle := signWidth_le bytes
  have hcount := digitCount_le (bytes.drop (signWidth bytes))
  rw [List.length_drop] at hcount
  unfold closeDouble
  dsimp only
  repeat' split
  all_goals simp only [Scan.Fits] <;> omega

theorem fits_scanNumber (ended : Bool) (number : Bytes) :
    (scanNumber ended number).Fits number.length := by
  have hle := signWidth_le number
  have hcount := digitCount_le (number.drop (signWidth number))
  rw [List.length_drop] at hcount
  unfold scanNumber
  dsimp only
  rcases hrest : (number.drop (signWidth number)).drop
    (digitCount (number.drop (signWidth number))) with _ | ⟨b, rest⟩
  · dsimp only
    split
    · refine fits_closePlain ?_
      simp only [NumberParts.size, Option.elim_none]
      omega
    · trivial
  · dsimp only
    have hlength := congrArg List.length hrest
    rw [List.length_drop, List.length_drop, List.length_cons] at hlength
    have hdigits := digitCount_le rest
    generalize hp : (if b = byte '.' then some (digitCount rest) else none) = fraction
    have hsize : NumberParts.size ⟨signWidth number, digitCount (number.drop (signWidth number)),
        fraction⟩ ≤ number.length := by
      rw [← hp]
      split <;> simp only [NumberParts.size, Option.elim_some, Option.elim_none] <;> omega
    split
    · split
      · exact fits_closePlain hsize
      · trivial
    · next e after hafter =>
      have hafterLength := congrArg List.length hafter
      rw [List.length_drop, List.length_cons] at hafterLength
      split
      · exact fits_closeDouble ended number _ after (by omega)
      · exact fits_closePlain hsize

/-! ## Escapes -/

theorem isKept_scanCodePoint (letter : Char) (width : Nat) (bytes more : Bytes) :
    (scanCodePoint letter width bytes).IsKept (scanCodePoint letter width (bytes ++ more)) := by
  by_cases hlength : width ≤ bytes.length
  · unfold scanCodePoint
    rw [List.take_append_of_le_length hlength]
    exact .inr rfl
  · unfold scanCodePoint
    dsimp only
    rw [if_pos (by rw [List.length_take]; omega)]
    exact .inl rfl

theorem fits_scanCodePoint (letter : Char) (width : Nat) (bytes : Bytes) :
    (scanCodePoint letter width bytes).Fits (2 + bytes.length) := by
  unfold scanCodePoint
  dsimp only
  have hlength := List.length_take (i := width) (l := bytes)
  split
  · trivial
  · next hwidth =>
    have hle : width ≤ bytes.length := by omega
    split
    · have hindex : ((bytes.take width).map fun b => Char.ofNat b.toNat).findIdx
          (fun c => !Hex.isDigit c) ≤ _ := List.findIdx_le_length
      rw [List.length_map] at hindex
      simp only [Scan.Fits]
      omega
    · split <;> simp only [Scan.Fits] <;> omega

theorem isKept_scanEscape (inString : Bool) (bytes more : Bytes) :
    (scanEscape inString bytes).IsKept (scanEscape inString (bytes ++ more)) := by
  cases bytes with
  | nil => exact .inl rfl
  | cons b rest =>
    rw [List.cons_append]
    unfold scanEscape
    dsimp only
    split
    · exact isKept_scanCodePoint 'u' 4 rest more
    · split
      · exact isKept_scanCodePoint 'U' 8 rest more
      · exact .inr rfl

theorem fits_scanEscape (inString : Bool) (bytes : Bytes) :
    (scanEscape inString bytes).Fits (1 + bytes.length) := by
  cases bytes with
  | nil => trivial
  | cons b rest =>
    unfold scanEscape
    dsimp only
    rw [List.length_cons, show 1 + (rest.length + 1) = 2 + rest.length by omega]
    split
    · exact fits_scanCodePoint 'u' 4 rest
    · split
      · exact fits_scanCodePoint 'U' 8 rest
      · split <;> simp only [Scan.Fits] <;> omega

/-- An escape in an IRI takes at least six bytes, more than any character. -/
theorem le_width_of_scanEscape {bytes : Bytes} {c : Char} {width : Nat}
    (h : scanEscape false bytes = .found c width) : 6 ≤ width := by
  have hpoint : ∀ (letter : Char) (n : Nat) (digits : Bytes),
      scanCodePoint letter n digits = .found c width → width = 2 + n := by
    intro letter n digits h
    unfold scanCodePoint at h
    dsimp only at h
    split at h
    · cases h
    · split at h
      · cases h
      · split at h
        · cases h
          rfl
        · cases h
  cases bytes with
  | nil => cases h
  | cons b rest =>
    unfold scanEscape at h
    dsimp only at h
    split at h
    · have := hpoint _ _ _ h
      omega
    · split at h
      · have := hpoint _ _ _ h
        omega
      · cases h

/-- An escape found in the bytes leaves as much more of them as came. -/
theorem drop_append_of_scanEscape {inString : Bool} {bytes : Bytes} {c : Char} {width : Nat}
    (h : scanEscape inString bytes = .found c width) (more : Bytes) :
    (bytes ++ more).drop (width - 1) = bytes.drop (width - 1) ++ more := by
  have hfits := fits_scanEscape inString bytes
  rw [h] at hfits
  simp only [Scan.Fits] at hfits
  rw [List.drop_append_of_le_length (by omega)]

/-! ## IRIs -/

theorem isKept_scanIriText (read : Bytes) (size : Nat) (bytes more : Bytes) :
    (scanIriText read size bytes).IsKept (scanIriText read size (bytes ++ more)) := by
  fun_induction scanIriText read size bytes with
  | case1 => exact .inl rfl
  | case2 read size rest =>
    rw [List.cons_append, scanIriText, if_pos rfl]
    exact .inr rfl
  | case3 => exact .inl rfl
  | case4 read size rest c width hescape hne ih =>
    have hkept := (isKept_scanEscape false rest more).eq_of_found hescape
    rw [List.cons_append, scanIriText, if_neg hne, if_pos rfl, hkept]
    dsimp only
    rw [drop_append_of_scanEscape hescape]
    exact ih
  | case5 read size rest cause offset width hescape hne =>
    have hkept : scanEscape false (rest ++ more) = .fault cause offset width := by
      rcases isKept_scanEscape false rest more with h | h
      · rw [h] at hescape
        cases hescape
      · rw [h, hescape]
    rw [List.cons_append, scanIriText, if_neg hne, if_pos rfl, hkept]
    exact .inr rfl
  | case6 read size b rest hne hne' ih =>
    rw [List.cons_append, scanIriText, if_neg hne, if_neg hne']
    exact ih

theorem fits_scanIriText (read : Bytes) (size : Nat) (bytes : Bytes) :
    (scanIriText read size bytes).Fits (size + bytes.length) := by
  fun_induction scanIriText read size bytes with
  | case1 => trivial
  | case2 =>
    simp only [Scan.Fits, List.length_cons]
    omega
  | case3 => trivial
  | case4 read size rest c width hescape hne ih =>
    have hfits := fits_scanEscape false rest
    rw [hescape] at hfits
    simp only [Scan.Fits] at hfits
    refine ih.mono ?_
    simp only [List.length_drop, List.length_cons]
    omega
  | case5 read size rest cause offset width hescape hne =>
    have hfits := fits_scanEscape false rest
    rw [hescape] at hfits
    simp only [Scan.Fits, List.length_cons] at hfits ⊢
    omega
  | case6 read size b rest hne hne' ih =>
    refine ih.mono ?_
    simp only [List.length_cons]
    omega

/-- Escapes are longer than what they stand for. -/
theorem length_le_of_scanIriText {read bytes content : Bytes} {size size' : Nat}
    (h : scanIriText read size bytes = .found content size') (hread : read.length ≤ size) :
    content.length ≤ size' := by
  fun_induction scanIriText read size bytes with
  | case1 => cases h
  | case2 =>
    cases h
    rw [List.length_reverse]
    omega
  | case3 => cases h
  | case4 read size rest c width hescape hne ih =>
    refine ih h ?_
    have hwidth := le_width_of_scanEscape hescape
    have hchar := length_encodeChar_le c
    rw [List.length_append, List.length_reverse]
    omega
  | case5 => cases h
  | case6 read size b rest hne hne' ih =>
    refine ih h ?_
    rw [List.length_cons]
    omega

theorem isKept_scanIri (base : Option Iri) (bytes more : Bytes) :
    (scanIri base bytes).IsKept (scanIri base (bytes ++ more)) := by
  unfold scanIri
  rcases isKept_scanIriText [] 1 bytes more with h | h
  · rw [h]
    exact .inl rfl
  · rw [h]
    exact .inr rfl

theorem fits_scanIri (base : Option Iri) (bytes : Bytes) :
    (scanIri base bytes).Fits (1 + bytes.length) := by
  have hfits := fits_scanIriText [] 1 bytes
  unfold scanIri
  revert hfits
  cases htext : scanIriText [] 1 bytes with
  | wait => exact fun _ => trivial
  | fault cause offset size => exact id
  | found content size =>
    intro hfits
    dsimp only
    split
    · next fault hfault =>
      have hoffset := offset_le_of_fault? hfault
      have hcontent := length_le_of_scanIriText htext (Nat.zero_le 1)
      simp only [Scan.Fits] at hfits ⊢
      omega
    · split
      · exact hfits
      · exact ⟨Nat.zero_le _, hfits⟩

/-! ## Strings -/

/-- What ends a stretch of plain bytes still ends it when more bytes come. -/
theorem dropWhile_append_of_cons {p : UInt8 → Bool} {bytes rest : Bytes} {b : UInt8}
    (h : bytes.dropWhile p = b :: rest) (more : Bytes) :
    (bytes ++ more).dropWhile p = b :: (rest ++ more) := by
  rw [List.dropWhile_append, h]
  rfl

theorem takeWhile_append_of_cons {p : UInt8 → Bool} {bytes rest : Bytes} {b : UInt8}
    (h : bytes.dropWhile p = b :: rest) (more : Bytes) :
    (bytes ++ more).takeWhile p = bytes.takeWhile p := by
  rw [List.takeWhile_append, if_neg]
  intro hall
  have := congrArg List.length (List.takeWhile_append_dropWhile (p := p) (l := bytes))
  rw [h, List.length_append, List.length_cons] at this
  omega

theorem length_of_takeWhile_dropWhile {p : UInt8 → Bool} {bytes rest : Bytes} {b : UInt8}
    (h : bytes.dropWhile p = b :: rest) :
    bytes.length = (bytes.takeWhile p).length + (rest.length + 1) := by
  have := congrArg List.length (List.takeWhile_append_dropWhile (p := p) (l := bytes))
  rw [h, List.length_append, List.length_cons] at this
  exact this.symm

/-- The bytes that a short string holds as they are. -/
def isPlainInShort (quote b : UInt8) : Bool := !(b = quote || b = byte '\\' || isLineEnd b)

theorem scanShort_nil {quote : UInt8} {bytes : Bytes}
    (h : bytes.dropWhile (isPlainInShort quote) = []) (read : List Char) (size : Nat) :
    scanShort quote read size bytes = .wait := by
  rw [scanShort.eq_def]
  dsimp only
  split
  · rfl
  · next h' =>
    rw [show (fun b => !(decide (b = quote) || decide (b = byte '\\') || isLineEnd b))
      = isPlainInShort quote from rfl, h] at h'
    cases h'

theorem scanShort_eq {quote b : UInt8} {bytes rest : Bytes}
    (h : bytes.dropWhile (isPlainInShort quote) = b :: rest) (read : List Char) (size : Nat) :
    scanShort quote read size bytes =
      if isLineEnd b && !rest.any fun b => b = quote || b = byte '\\' then .wait
      else
        match Utf8.fault? (bytes.takeWhile (isPlainInShort quote)) with
        | some fault =>
          .fault (.text fault) (size + fault.offset)
            (bytes.takeWhile (isPlainInShort quote)).length
        | none =>
          let stretch := bytes.takeWhile (isPlainInShort quote)
          let read := read ++ (Utf8.decodeLossy stretch).toList
          let size := size + stretch.length
          if b = quote then .found (.string (.ofList read)) (size + 1)
          else if b = byte '\\' then
            match scanEscape true rest with
            | .wait => .wait
            | .found c width =>
              scanShort quote (read ++ [c]) (size + width) (rest.drop (width - 1))
            | .fault cause offset width =>
              faultToQuote quote cause (size + offset) (size + width) (rest.drop (width - 1))
          else faultToQuote quote .lineEndInString size (size + 1) rest := by
  rw [scanShort.eq_def]
  dsimp only
  split
  · next h' =>
    rw [show (fun b => !(decide (b = quote) || decide (b = byte '\\') || isLineEnd b))
      = isPlainInShort quote from rfl, h] at h'
    cases h'
  · next b' rest' h' =>
    rw [show (fun b => !(decide (b = quote) || decide (b = byte '\\') || isLineEnd b))
      = isPlainInShort quote from rfl, h] at h'
    cases h'
    rfl

theorem isKept_faultToQuote {α : Type} (quote : UInt8) (cause : Token.Fault) (offset size : Nat)
    (bytes more : Bytes) :
    (faultToQuote quote cause offset size bytes : Scan α).IsKept
      (faultToQuote quote cause offset size (bytes ++ more)) := by
  unfold faultToQuote indexOf?
  cases h : bytes.findIdx? (· = quote) with
  | none => exact .inl rfl
  | some n =>
    rw [List.findIdx?_append, h]
    exact .inr rfl

theorem fits_faultToQuote {α : Type} (quote : UInt8) (cause : Token.Fault) {offset size : Nat}
    (hoffset : offset ≤ size) (bytes : Bytes) :
    (faultToQuote quote cause offset size bytes : Scan α).Fits (size + bytes.length) := by
  unfold faultToQuote indexOf?
  cases h : bytes.findIdx? (· = quote) with
  | none => trivial
  | some n =>
    have := (List.findIdx?_eq_some_iff_findIdx_eq.1 h).1
    simp only [Scan.Fits]
    omega

/-- The offset of an escape's fault lies within the escape. -/
theorem offset_le_of_scanEscape {inString : Bool} {bytes : Bytes} {cause : Token.Fault}
    {offset width : Nat} (h : scanEscape inString bytes = .fault cause offset width) :
    offset ≤ width := by
  have hpoint : ∀ (letter : Char) (n : Nat) (digits : Bytes),
      scanCodePoint letter n digits = .fault cause offset width → offset ≤ width := by
    intro letter n digits h
    unfold scanCodePoint at h
    dsimp only at h
    split at h
    · cases h
    · next hwidth =>
      split at h
      · cases h
        have hindex : ((digits.take n).map fun b => Char.ofNat b.toNat).findIdx
            (fun c => !Hex.isDigit c) ≤ _ := List.findIdx_le_length
        rw [List.length_map, List.length_take] at hindex
        omega
      · split at h
        · cases h
        · cases h
          exact Nat.zero_le _
  cases bytes with
  | nil => cases h
  | cons b rest =>
    unfold scanEscape at h
    dsimp only at h
    split at h
    · exact hpoint _ _ _ h
    · split at h
      · exact hpoint _ _ _ h
      · split at h
        · cases h
        · cases h
          exact Nat.zero_le _

theorem isKept_scanShort (quote : UInt8) (read : List Char) (size : Nat) (bytes more : Bytes) :
    (scanShort quote read size bytes).IsKept (scanShort quote read size (bytes ++ more)) := by
  induction hn : bytes.length using Nat.strongRecOn generalizing read size bytes with
  | _ n ih =>
    cases hstretch : bytes.dropWhile (isPlainInShort quote) with
    | nil =>
      rw [scanShort_nil hstretch]
      exact .inl rfl
    | cons b rest =>
      have hlength := length_lt_of_dropWhile hstretch
      rw [scanShort_eq hstretch, scanShort_eq (dropWhile_append_of_cons hstretch more),
        takeWhile_append_of_cons hstretch, List.any_append]
      generalize bytes.takeWhile (isPlainInShort quote) = stretch
      by_cases hopen : (isLineEnd b && !rest.any fun b => b = quote || b = byte '\\') = true
      · rw [if_pos hopen]
        exact .inl rfl
      · rw [if_neg hopen]
        -- Where the scan goes on behind a line end is there already, and more bytes take none away.
        have hopen' : ¬ (isLineEnd b && !((rest.any fun b => b = quote || b = byte '\\')
            || more.any fun b => b = quote || b = byte '\\')) = true := by
          simp only [Bool.and_eq_true, Bool.not_eq_true', Bool.or_eq_false_iff, not_and] at hopen ⊢
          exact fun hb hrest => absurd hrest (hopen hb)
        rw [if_neg hopen']
        cases Utf8.fault? stretch with
        | some fault => exact .inr rfl
        | none =>
          dsimp only
          by_cases hquote : b = quote
          · rw [if_pos hquote, if_pos hquote]
            exact .inr rfl
          · rw [if_neg hquote, if_neg hquote]
            by_cases hescape : b = byte '\\'
            · rw [if_pos hescape, if_pos hescape]
              rcases isKept_scanEscape true rest more with h | h
              · rw [h]
                exact .inl rfl
              · rw [h]
                cases hfound : scanEscape true rest with
                | wait => exact .inl rfl
                | found c width =>
                  dsimp only
                  rw [drop_append_of_scanEscape hfound]
                  exact ih _ (by rw [List.length_drop]; omega) _ _ _ rfl
                | fault cause offset width =>
                  have hfits := fits_scanEscape true rest
                  rw [hfound] at hfits
                  simp only [Scan.Fits] at hfits
                  dsimp only
                  rw [List.drop_append_of_le_length (by omega)]
                  exact isKept_faultToQuote quote cause _ _ _ more
            · rw [if_neg hescape, if_neg hescape]
              exact isKept_faultToQuote quote _ _ _ rest more

theorem fits_scanShort (quote : UInt8) (read : List Char) (size : Nat) (bytes : Bytes) :
    (scanShort quote read size bytes).Fits (size + bytes.length) := by
  induction hn : bytes.length using Nat.strongRecOn generalizing read size bytes with
  | _ n ih =>
    cases hstretch : bytes.dropWhile (isPlainInShort quote) with
    | nil =>
      rw [scanShort_nil hstretch]
      trivial
    | cons b rest =>
      have hlength := length_of_takeWhile_dropWhile hstretch
      rw [scanShort_eq hstretch]
      generalize bytes.takeWhile (isPlainInShort quote) = stretch at hlength ⊢
      split
      · trivial
      · cases hfault : Utf8.fault? stretch with
        | some fault =>
          have := Utf8.offset_le_of_fault? hfault
          simp only [Scan.Fits]
          omega
        | none =>
          dsimp only
          split
          · simp only [Scan.Fits]
            omega
          · split
            · have hfits := fits_scanEscape true rest
              cases hfound : scanEscape true rest with
              | wait => trivial
              | found c width =>
                rw [hfound] at hfits
                simp only [Scan.Fits] at hfits
                have hdrop := List.length_drop (i := width - 1) (l := rest)
                exact (ih _ (by omega) _ _ _ rfl).mono (by omega)
              | fault cause offset width =>
                rw [hfound] at hfits
                simp only [Scan.Fits] at hfits
                have hoffset := offset_le_of_scanEscape hfound
                have hdrop := List.length_drop (i := width - 1) (l := rest)
                exact (fits_faultToQuote quote cause (by omega) _).mono (by omega)
            · exact (fits_faultToQuote quote _ (by omega) rest).mono (by omega)

/-! ### Long strings -/

/-- The bytes that a long string holds as they are, whatever follows them. -/
def isPlainInLong (quote b : UInt8) : Bool := !(b = quote || b = byte '\\')

theorem scanLong_nil {quote : UInt8} {bytes : Bytes}
    (h : bytes.dropWhile (isPlainInLong quote) = []) (read : List Char) (size : Nat) :
    scanLong quote read size bytes = .wait := by
  rw [scanLong.eq_def]
  dsimp only
  split
  · rfl
  · next h' =>
    rw [show (fun b => !(decide (b = quote) || decide (b = byte '\\'))) = isPlainInLong quote
      from rfl, h] at h'
    cases h'

theorem scanLong_eq {quote b : UInt8} {bytes rest : Bytes}
    (h : bytes.dropWhile (isPlainInLong quote) = b :: rest) (read : List Char) (size : Nat) :
    scanLong quote read size bytes =
      match Utf8.fault? (bytes.takeWhile (isPlainInLong quote)) with
      | some fault =>
        .fault (.text fault) (size + fault.offset) (bytes.takeWhile (isPlainInLong quote)).length
      | none =>
        let stretch := bytes.takeWhile (isPlainInLong quote)
        let read := read ++ (Utf8.decodeLossy stretch).toList
        let size := size + stretch.length
        if b = byte '\\' then
          match scanEscape true rest with
          | .wait => .wait
          | .found c width => scanLong quote (read ++ [c]) (size + width) (rest.drop (width - 1))
          | .fault cause offset width => .fault cause (size + offset) (size + width)
        else
          if (rest.take 2).length < 2 then .wait
          else if rest.take 2 = [quote, quote] then .found (.string (.ofList read)) (size + 3)
          else scanLong quote (read ++ [Char.ofNat quote.toNat]) (size + 1) rest := by
  rw [scanLong.eq_def]
  dsimp only
  split
  · next h' =>
    rw [show (fun b => !(decide (b = quote) || decide (b = byte '\\'))) = isPlainInLong quote
      from rfl, h] at h'
    cases h'
  · next b' rest' h' =>
    rw [show (fun b => !(decide (b = quote) || decide (b = byte '\\'))) = isPlainInLong quote
      from rfl, h] at h'
    cases h'
    rfl

theorem isKept_scanLong (quote : UInt8) (read : List Char) (size : Nat) (bytes more : Bytes) :
    (scanLong quote read size bytes).IsKept (scanLong quote read size (bytes ++ more)) := by
  induction hn : bytes.length using Nat.strongRecOn generalizing read size bytes with
  | _ n ih =>
    cases hstretch : bytes.dropWhile (isPlainInLong quote) with
    | nil =>
      rw [scanLong_nil hstretch]
      exact .inl rfl
    | cons b rest =>
      have hlength := length_lt_of_dropWhile hstretch
      rw [scanLong_eq hstretch, scanLong_eq (dropWhile_append_of_cons hstretch more),
        takeWhile_append_of_cons hstretch]
      generalize bytes.takeWhile (isPlainInLong quote) = stretch
      cases Utf8.fault? stretch with
      | some fault => exact .inr rfl
      | none =>
        dsimp only
        by_cases hescape : b = byte '\\'
        · rw [if_pos hescape, if_pos hescape]
          rcases isKept_scanEscape true rest more with h | h
          · rw [h]
            exact .inl rfl
          · rw [h]
            cases hfound : scanEscape true rest with
            | wait => exact .inl rfl
            | found c width =>
              dsimp only
              rw [drop_append_of_scanEscape hfound]
              exact ih _ (by rw [List.length_drop]; omega) _ _ _ rfl
            | fault cause offset width => exact .inr rfl
        · rw [if_neg hescape, if_neg hescape]
          by_cases htwo : (rest.take 2).length < 2
          · rw [if_pos htwo]
            exact .inl rfl
          · rw [List.length_take] at htwo
            rw [List.take_append_of_le_length (by omega)]
            split
            · exact .inl rfl
            · split
              · exact .inr rfl
              · exact ih _ (by omega) _ _ _ rfl

theorem fits_scanLong (quote : UInt8) (read : List Char) (size : Nat) (bytes : Bytes) :
    (scanLong quote read size bytes).Fits (size + bytes.length) := by
  induction hn : bytes.length using Nat.strongRecOn generalizing read size bytes with
  | _ n ih =>
    cases hstretch : bytes.dropWhile (isPlainInLong quote) with
    | nil =>
      rw [scanLong_nil hstretch]
      trivial
    | cons b rest =>
      have hlength := length_of_takeWhile_dropWhile hstretch
      rw [scanLong_eq hstretch]
      generalize bytes.takeWhile (isPlainInLong quote) = stretch at hlength ⊢
      cases hfault : Utf8.fault? stretch with
      | some fault =>
        have := Utf8.offset_le_of_fault? hfault
        simp only [Scan.Fits]
        omega
      | none =>
        dsimp only
        split
        · have hfits := fits_scanEscape true rest
          cases hfound : scanEscape true rest with
          | wait => trivial
          | found c width =>
            rw [hfound] at hfits
            simp only [Scan.Fits] at hfits
            have hdrop := List.length_drop (i := width - 1) (l := rest)
            exact (ih _ (by omega) _ _ _ rfl).mono (by omega)
          | fault cause offset width =>
            rw [hfound] at hfits
            simp only [Scan.Fits] at hfits ⊢
            omega
        · split
          · trivial
          · next htwo =>
            rw [List.length_take] at htwo
            split
            · simp only [Scan.Fits]
              omega
            · exact (ih _ (by omega) _ _ _ rfl).mono (by omega)

theorem isKept_scanString (quote : UInt8) (bytes more : Bytes) :
    (scanString quote bytes).IsKept (scanString quote (bytes ++ more)) := by
  rcases bytes with _ | ⟨b, rest⟩
  · exact .inl rfl
  · rw [List.cons_append]
    unfold scanString
    dsimp only
    split
    · rcases rest with _ | ⟨b', rest'⟩
      · exact .inl rfl
      · rw [List.cons_append]
        dsimp only
        split
        · exact isKept_scanLong quote [] 3 rest' more
        · exact isKept_scanShort quote [] 1 (b :: b' :: rest') more
    · exact isKept_scanShort quote [] 1 (b :: rest) more

theorem fits_scanString (quote : UInt8) (bytes : Bytes) :
    (scanString quote bytes).Fits (1 + bytes.length) := by
  rcases bytes with _ | ⟨b, rest⟩
  · trivial
  · unfold scanString
    dsimp only
    split
    · rcases rest with _ | ⟨b', rest'⟩
      · trivial
      · dsimp only
        split
        · refine (fits_scanLong quote [] 3 rest').mono ?_
          simp only [List.length_cons]
          omega
        · exact fits_scanShort quote [] 1 (b :: b' :: rest')
    · exact fits_scanShort quote [] 1 (b :: rest)

/-! ## Language tags and marks -/

theorem tagLength?_append {inEmptyBlock : Bool} {count n : Nat} {bytes : Bytes}
    (h : tagLength? inEmptyBlock count bytes = some n) (more : Bytes) :
    tagLength? inEmptyBlock count (bytes ++ more) = some n := by
  fun_induction tagLength? inEmptyBlock count bytes with
  | case1 => cases h
  | case2 _ count b rest halpha ih =>
    rw [List.cons_append, tagLength?, if_pos halpha]
    exact ih h
  | case3 count b rest halpha =>
    rw [List.cons_append, tagLength?, if_neg halpha, if_pos rfl]
    exact h
  | case4 _ count rest halpha hblock ih =>
    rw [List.cons_append, tagLength?, if_neg halpha, if_neg hblock, if_pos rfl]
    exact ih h
  | case5 _ count b rest halpha hblock hb =>
    rw [List.cons_append, tagLength?, if_neg halpha, if_neg hblock, if_neg hb]
    exact h

theorem le_of_tagLength? {inEmptyBlock : Bool} {count n : Nat} {bytes : Bytes}
    (h : tagLength? inEmptyBlock count bytes = some n) : n ≤ count + bytes.length := by
  fun_induction tagLength? inEmptyBlock count bytes with
  | case1 => cases h
  | case2 _ _ _ _ _ ih =>
    have := ih h
    rw [List.length_cons]
    omega
  | case3 =>
    cases h
    omega
  | case4 _ _ _ _ _ ih =>
    have := ih h
    rw [List.length_cons]
    omega
  | case5 =>
    cases h
    omega

theorem isKept_scanLanguage (bytes more : Bytes) :
    (scanLanguage bytes).IsKept (scanLanguage (bytes ++ more)) := by
  rcases bytes with _ | ⟨b, rest⟩
  · exact .inl rfl
  · rw [List.cons_append]
    unfold scanLanguage
    dsimp only
    split
    · exact .inr rfl
    · cases h : tagLength? false 0 (b :: rest) with
      | none => exact .inl rfl
      | some n =>
        have hle := le_of_tagLength? h
        rw [← List.cons_append, tagLength?_append h]
        dsimp only
        rw [List.take_append_of_le_length (by omega)]
        exact .inr rfl

theorem fits_scanLanguage (bytes : Bytes) : (scanLanguage bytes).Fits (1 + bytes.length) := by
  rcases bytes with _ | ⟨b, rest⟩
  · trivial
  · unfold scanLanguage
    dsimp only
    split
    · simp only [Scan.Fits]
      omega
    · cases h : tagLength? false 0 (b :: rest) with
      | none => trivial
      | some n =>
        have hle := le_of_tagLength? h
        dsimp only
        split <;> simp only [Scan.Fits] <;> omega

theorem isKept_scanMark (second : UInt8) (long short : Mark) (bytes more : Bytes) :
    (scanMark second long short bytes).IsKept (scanMark second long short (bytes ++ more)) := by
  cases bytes with
  | nil => exact .inl rfl
  | cons => exact .inr rfl

theorem fits_scanMark (second : UInt8) (long short : Mark) (bytes : Bytes) :
    (scanMark second long short bytes).Fits (1 + bytes.length) := by
  cases bytes with
  | nil => trivial
  | cons b rest =>
    unfold scanMark
    dsimp only
    rw [List.length_cons]
    split <;> simp only [Scan.Fits] <;> omega

theorem isKept_scanDot (ended : Bool) (bytes more : Bytes) :
    (scanDot false bytes).IsKept (scanDot ended (bytes ++ more)) := by
  cases bytes with
  | nil => exact .inl rfl
  | cons b rest =>
    rw [List.cons_append]
    unfold scanDot
    dsimp only
    split
    · exact isKept_scanNumber ended (byte '.' :: b :: rest) more
    · exact .inr rfl

theorem fits_scanDot (ended : Bool) (bytes : Bytes) :
    (scanDot ended bytes).Fits (1 + bytes.length) := by
  cases bytes with
  | nil =>
    unfold scanDot
    dsimp only
    split
    · exact Nat.le_refl 1
    · trivial
  | cons b rest =>
    unfold scanDot
    dsimp only
    split
    · refine (fits_scanNumber ended (byte '.' :: b :: rest)).mono ?_
      simp only [List.length_cons]
      omega
    · simp only [Scan.Fits]
      omega

theorem isKept_scanUnderscore (bytes more : Bytes) :
    (scanUnderscore bytes).IsKept (scanUnderscore (bytes ++ more)) := by
  cases bytes with
  | nil => exact .inl rfl
  | cons b rest =>
    rw [List.cons_append]
    unfold scanUnderscore
    dsimp only
    split
    · exact isKept_scanLabel [] 2 rest more
    · exact .inr rfl

theorem fits_scanUnderscore (bytes : Bytes) : (scanUnderscore bytes).Fits (1 + bytes.length) := by
  cases bytes with
  | nil => trivial
  | cons b rest =>
    unfold scanUnderscore
    dsimp only
    rw [List.length_cons]
    split
    · exact (fits_scanLabel [] 2 rest).mono (by omega)
    · simp only [Scan.Fits]
      omega

theorem isKept_scanAngle (base : Option Iri) (bytes more : Bytes) :
    (scanAngle base bytes).IsKept (scanAngle base (bytes ++ more)) := by
  cases bytes with
  | nil => exact .inl rfl
  | cons b rest =>
    rw [List.cons_append]
    unfold scanAngle
    dsimp only
    split
    · exact .inr rfl
    · exact isKept_scanIri base (b :: rest) more

theorem fits_scanAngle (base : Option Iri) (bytes : Bytes) :
    (scanAngle base bytes).Fits (1 + bytes.length) := by
  cases bytes with
  | nil => trivial
  | cons b rest =>
    unfold scanAngle
    dsimp only
    split
    · simp only [Scan.Fits, List.length_cons]
      omega
    · exact fits_scanIri base (b :: rest)

/-! ## Tokens -/

/-- What a scanner says of a token is what it says of it when more of the document is there. -/
theorem isKept_scan (base : Option Iri) (ended : Bool) (b : UInt8) (rest more : Bytes) :
    (scan base false b rest).IsKept (scan base ended b (rest ++ more)) := by
  unfold scan
  split
  · exact .inr rfl
  · split
    · exact isKept_scanMark _ _ _ rest more
    · split
      · exact isKept_scanAngle base rest more
      · split
        · exact isKept_scanUnderscore rest more
        · split
          · exact isKept_scanString b rest more
          · split
            · exact isKept_scanLanguage rest more
            · split
              · exact isKept_scanDot ended rest more
              · split
                · exact isKept_scanNumber ended (b :: rest) more
                · split
                  · exact isKept_scanVariable ended rest more
                  · exact isKept_scanName ended [] 0 (b :: rest) more

/-- What a scanner says of a token lies within the bytes that it saw. -/
theorem fits_scan (base : Option Iri) (ended : Bool) (b : UInt8) (rest : Bytes) :
    (scan base ended b rest).Fits (rest.length + 1) := by
  rw [Nat.add_comm]
  unfold scan
  split
  · exact Nat.le_add_right _ _
  · split
    · exact fits_scanMark _ _ _ rest
    · split
      · exact fits_scanAngle base rest
      · split
        · exact fits_scanUnderscore rest
        · split
          · exact fits_scanString b rest
          · split
            · exact fits_scanLanguage rest
            · split
              · exact fits_scanDot ended rest
              · split
                · exact (fits_scanNumber ended (b :: rest)).mono
                    (Nat.le_of_eq (Nat.add_comm _ _))
                · split
                  · exact fits_scanVariable ended rest
                  · refine (fits_scanName ended [] 0 (b :: rest)).mono ?_
                    rw [List.length_cons]
                    omega

end TidyTrig.Trig
