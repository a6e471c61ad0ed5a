import TidyTrig.Text.Utf8

/-!
# Reading back what was encoded

Two facts are about the arithmetic of the encoding. By `decodeNext_encodeChar` a character in front
of any bytes is read as itself, with its width; by `take_of_decodeNext` a character that is read
stands there in its one encoding. From them follow the readings of whole texts, that an encoded text
has no fault, and that bytes without a fault are an encoded text. The last section separates ASCII
from the rest: the bytes of a character past ASCII are no ASCII characters.
-/

namespace TidyTrig.Utf8

/-! ## Bytes as numbers -/

theorem toNat_ofNat_of_lt {n : Nat} (h : n < 256) : (UInt8.ofNat n).toNat = n := by
  rw [UInt8.toNat_ofNat', Nat.mod_eq_of_lt h]

theorem isContinuation_iff {b : UInt8} :
    isContinuation b = true ↔ 0x80 ≤ b.toNat ∧ b.toNat ≤ 0xBF := by
  simp [isContinuation, UInt8.le_iff_toNat_le]

theorem isContinuation_ofNat (n : Nat) : isContinuation (.ofNat (0x80 + n % 64)) = true := by
  rw [isContinuation_iff, toNat_ofNat_of_lt (by omega)]
  omega

theorem low_ofNat (n : Nat) : low (.ofNat (0x80 + n % 64)) = n % 64 := by
  rw [low, toNat_ofNat_of_lt (by omega)]
  omega

/-! ## Characters of one to four bytes -/

theorem decodeNext_one {b : UInt8} (h : b < 0x80) (rest : Bytes) :
    decodeNext (b :: rest) = .char (.ofNat b.toNat) 1 := by
  rw [decodeNext, if_pos h]

theorem decodeNext_two {b b₁ : UInt8} (h : 0xC2 ≤ b.toNat) (h' : b.toNat < 0xE0)
    (h₁ : isContinuation b₁ = true) (rest : Bytes) :
    decodeNext (b :: b₁ :: rest) = .char (.ofNat (b.toNat % 32 * 64 + low b₁)) 2 := by
  have hb : ¬ b < 0x80 ∧ ¬ b < 0xC2 ∧ b < 0xE0 := by
    simp only [UInt8.lt_iff_toNat_lt, UInt8.toNat_ofNat]
    omega
  rw [decodeNext, if_neg hb.1, if_neg hb.2.1, if_pos hb.2.2, decodeTwo, if_pos h₁]

theorem decodeThree_of_le {b least greatest b₁ b₂ : UInt8} (h₁ : least ≤ b₁) (h₁' : b₁ ≤ greatest)
    (h₂ : isContinuation b₂ = true) (rest : Bytes) :
    decodeThree b least greatest (b₁ :: b₂ :: rest)
      = .char (.ofNat (b.toNat % 16 * 4096 + low b₁ * 64 + low b₂)) 3 := by
  simp only [decodeThree, h₁, h₁', h₂, decide_true, Bool.and_self, if_true]

theorem decodeFour_of_le {b least greatest b₁ b₂ b₃ : UInt8} (h₁ : least ≤ b₁)
    (h₁' : b₁ ≤ greatest) (h₂ : isContinuation b₂ = true) (h₃ : isContinuation b₃ = true)
    (rest : Bytes) :
    decodeFour b least greatest (b₁ :: b₂ :: b₃ :: rest)
      = .char (.ofNat (b.toNat % 8 * 262144 + low b₁ * 4096 + low b₂ * 64 + low b₃)) 4 := by
  simp only [decodeFour, h₁, h₁', h₂, h₃, decide_true, Bool.and_self, if_true]

/-- Three bytes make a character unless they are an overlong form or a surrogate. -/
theorem decodeNext_three {b b₁ b₂ : UInt8} (h : 0xE0 ≤ b.toNat) (h' : b.toNat < 0xF0)
    (h₁ : isContinuation b₁ = true) (h₂ : isContinuation b₂ = true)
    (hlow : b.toNat = 0xE0 → 0xA0 ≤ b₁.toNat) (hsurrogate : b.toNat = 0xED → b₁.toNat ≤ 0x9F)
    (rest : Bytes) :
    decodeNext (b :: b₁ :: b₂ :: rest)
      = .char (.ofNat (b.toNat % 16 * 4096 + low b₁ * 64 + low b₂)) 3 := by
  rw [isContinuation_iff] at h₁
  have hb : ¬ b < 0x80 ∧ ¬ b < 0xC2 ∧ ¬ b < 0xE0 ∧ b < 0xF0 := by
    simp only [UInt8.lt_iff_toNat_lt, UInt8.toNat_ofNat]
    omega
  rw [decodeNext, if_neg hb.1, if_neg hb.2.1, if_neg hb.2.2.1]
  by_cases he : b = 0xE0
  · have := hlow (by rw [he]; rfl)
    rw [if_pos he, decodeThree_of_le _ _ h₂] <;> rw [UInt8.le_iff_toNat_le]
    · exact this
    · exact h₁.2
  · rw [if_neg he]
    by_cases hd : b = 0xED
    · have := hsurrogate (by rw [hd]; rfl)
      rw [if_pos hd, decodeThree_of_le _ _ h₂] <;> rw [UInt8.le_iff_toNat_le]
      · exact h₁.1
      · exact this
    · rw [if_neg hd, if_pos hb.2.2.2, decodeThree_of_le _ _ h₂] <;> rw [UInt8.le_iff_toNat_le]
      · exact h₁.1
      · exact h₁.2

/-- Four bytes make a character unless they are an overlong form or past the last code point. -/
theorem decodeNext_four {b b₁ b₂ b₃ : UInt8} (h : 0xF0 ≤ b.toNat) (h' : b.toNat ≤ 0xF4)
    (h₁ : isContinuation b₁ = true) (h₂ : isContinuation b₂ = true)
    (h₃ : isContinuation b₃ = true) (hlow : b.toNat = 0xF0 → 0x90 ≤ b₁.toNat)
    (hlast : b.toNat = 0xF4 → b₁.toNat ≤ 0x8F) (rest : Bytes) :
    decodeNext (b :: b₁ :: b₂ :: b₃ :: rest)
      = .char (.ofNat (b.toNat % 8 * 262144 + low b₁ * 4096 + low b₂ * 64 + low b₃)) 4 := by
  rw [isContinuation_iff] at h₁
  have hb : ¬ b < 0x80 ∧ ¬ b < 0xC2 ∧ ¬ b < 0xE0 ∧ ¬ b < 0xF0 := by
    simp only [UInt8.lt_iff_toNat_lt, UInt8.toNat_ofNat]
    omega
  have hne : b ≠ 0xE0 ∧ b ≠ 0xED := by
    constructor <;> rintro rfl <;> exact absurd h (by decide)
  rw [decodeNext, if_neg hb.1, if_neg hb.2.1, if_neg hb.2.2.1, if_neg hne.1, if_neg hne.2,
    if_neg hb.2.2.2]
  by_cases he : b = 0xF0
  · have := hlow (by rw [he]; rfl)
    rw [if_pos he, decodeFour_of_le _ _ h₂ h₃] <;> rw [UInt8.le_iff_toNat_le]
    · exact this
    · exact h₁.2
  · rw [if_neg he]
    by_cases h4 : b = 0xF4
    · have := hlast (by rw [h4]; rfl)
      rw [if_neg (by rw [h4]; decide), if_pos h4, decodeFour_of_le _ _ h₂ h₃] <;>
        rw [UInt8.le_iff_toNat_le]
      · exact h₁.1
      · exact this
    · have hlt : b < 0xF4 := by
        have : b.toNat ≠ (0xF4 : UInt8).toNat := fun hc => h4 (UInt8.toNat_inj.1 hc)
        simp only [UInt8.lt_iff_toNat_lt, UInt8.toNat_ofNat] at *
        omega
      rw [if_pos hlt, decodeFour_of_le _ _ h₂ h₃] <;> rw [UInt8.le_iff_toNat_le]
      · exact h₁.1
      · exact h₁.2

/-- An encoded character is read as itself, whatever follows it. -/
theorem decodeNext_encodeChar (c : Char) (rest : Bytes) :
    decodeNext (encodeChar c ++ rest) = .char c (encodeChar c).length := by
  have hvalid : c.toNat < 0xD800 ∨ 0xDFFF < c.toNat ∧ c.toNat < 0x110000 := c.valid
  have hback : Char.ofNat c.toNat = c := Char.ofNat_toNat c
  rw [encodeChar]
  split
  · next h =>
    have hb := toNat_ofNat_of_lt (show c.toNat < 256 by omega)
    rw [List.singleton_append, decodeNext_one, hb, hback, List.length_singleton]
    rw [UInt8.lt_iff_toNat_lt, hb]
    exact h
  · split
    · next h =>
      have hb := toNat_ofNat_of_lt (show 0xC0 + c.toNat / 64 < 256 by omega)
      rw [List.cons_append, List.singleton_append,
        decodeNext_two (by omega) (by omega) (isContinuation_ofNat _), low_ofNat, hb,
        show (0xC0 + c.toNat / 64) % 32 * 64 + c.toNat % 64 = c.toNat by omega, hback]
      rfl
    · split
      · next h =>
        have hb := toNat_ofNat_of_lt (show 0xE0 + c.toNat / 4096 < 256 by omega)
        have hb₁ := toNat_ofNat_of_lt (show 0x80 + c.toNat / 64 % 64 < 256 by omega)
        rw [List.cons_append, List.cons_append, List.singleton_append,
          decodeNext_three (by omega) (by omega) (isContinuation_ofNat _)
            (isContinuation_ofNat _) (by omega) (by omega), low_ofNat, low_ofNat, hb,
          show (0xE0 + c.toNat / 4096) % 16 * 4096 + c.toNat / 64 % 64 * 64 + c.toNat % 64
            = c.toNat by omega, hback]
        rfl
      · next h =>
        have hb := toNat_ofNat_of_lt (show 0xF0 + c.toNat / 262144 < 256 by omega)
        have hb₁ := toNat_ofNat_of_lt (show 0x80 + c.toNat / 4096 % 64 < 256 by omega)
        rw [List.cons_append, List.cons_append, List.cons_append, List.singleton_append,
          decodeNext_four (by omega) (by omega) (isContinuation_ofNat _)
            (isContinuation_ofNat _) (isContinuation_ofNat _) (by omega) (by omega),
          low_ofNat, low_ofNat, low_ofNat, hb,
          show (0xF0 + c.toNat / 262144) % 8 * 262144 + c.toNat / 4096 % 64 * 4096
              + c.toNat / 64 % 64 * 64 + c.toNat % 64 = c.toNat by omega, hback]
        rfl

/-! ## Whole texts -/

/-- A character takes at least one byte. -/
theorem exists_encodeChar_eq_cons (c : Char) : ∃ b tail, encodeChar c = b :: tail := by
  rw [encodeChar]
  split
  · exact ⟨_, _, rfl⟩
  · split
    · exact ⟨_, _, rfl⟩
    · split <;> exact ⟨_, _, rfl⟩

theorem length_encodeChar_pos (c : Char) : 0 < (encodeChar c).length := by
  obtain ⟨b, tail, h⟩ := exists_encodeChar_eq_cons c
  rw [h]
  exact Nat.succ_pos _

theorem length_encodeChar_le (c : Char) : (encodeChar c).length ≤ 4 := by
  rw [encodeChar]
  split
  · exact Nat.le_of_ble_eq_true rfl
  · split
    · exact Nat.le_of_ble_eq_true rfl
    · split <;> exact Nat.le_of_ble_eq_true rfl

/-- What is left after the character in front, in the form in which readers drop it. -/
theorem drop_of_encodeChar {c : Char} {b : UInt8} {tail : Bytes} (h : encodeChar c = b :: tail)
    (rest : Bytes) :
    (tail ++ rest).drop ((encodeChar c).length - 1) = rest := by
  rw [h, List.length_cons, Nat.add_sub_cancel, List.drop_left]

@[simp] theorem encode_append (s t : String) : encode (s ++ t) = encode s ++ encode t := by
  rw [encode, String.toList_append, List.flatMap_append]
  rfl

@[simp] theorem encode_empty : encode "" = [] := rfl

theorem encode_ofList (cs : List Char) : encode (.ofList cs) = cs.flatMap encodeChar := by
  rw [encode, String.toList_ofList]

theorem readings_encodeChar (c : Char) (rest : Bytes) :
    readings (encodeChar c ++ rest) = some c :: readings rest := by
  obtain ⟨b, tail, h⟩ := exists_encodeChar_eq_cons c
  have hnext := decodeNext_encodeChar c rest
  have hdrop := drop_of_encodeChar h rest
  rw [h, List.cons_append] at hnext ⊢
  rw [readings, hnext]
  rw [h] at hdrop
  simp only [hdrop]

theorem readings_flatMap (cs : List Char) (rest : Bytes) :
    readings (cs.flatMap encodeChar ++ rest) = cs.map some ++ readings rest := by
  induction cs with
  | nil => rfl
  | cons c cs ih =>
    rw [List.flatMap_cons, List.append_assoc, readings_encodeChar, ih]
    rfl

theorem readings_encode (text : String) : readings (encode text) = text.toList.map some := by
  have h := readings_flatMap text.toList []
  rw [List.append_nil, readings, List.append_nil] at h
  exact h

@[simp] theorem decode?_encode (text : String) : decode? (encode text) = some text := by
  have h : ∀ cs : List Char, (cs.map some).mapM id = some cs := by
    intro cs
    induction cs with
    | nil => rfl
    | cons c cs ih => simp [ih]
  rw [decode?, readings_encode, h, Option.map_some, String.ofList_toList]

@[simp] theorem decodeLossy_encode (text : String) : decodeLossy (encode text) = text := by
  rw [decodeLossy, readings_encode, List.map_map]
  have h : (fun x : Option Char => x.getD '\uFFFD') ∘ some = id := rfl
  rw [h, List.map_id, String.ofList_toList]

theorem fault?_encodeChar (c : Char) {rest : Bytes} (h : fault? rest = none) :
    fault? (encodeChar c ++ rest) = none := by
  obtain ⟨b, tail, hc⟩ := exists_encodeChar_eq_cons c
  have hnext := decodeNext_encodeChar c rest
  have hdrop := drop_of_encodeChar hc rest
  rw [hc, List.cons_append] at hnext ⊢
  rw [fault?, hnext]
  rw [hc] at hdrop
  simp only [hdrop, h, Option.map_none]

/-- An encoded text has no undecodable part. -/
@[simp] theorem fault?_encode (text : String) : fault? (encode text) = none := by
  have h : ∀ cs : List Char, fault? (cs.flatMap encodeChar) = none := by
    intro cs
    induction cs with
    | nil => rw [List.flatMap_nil, fault?]
    | cons c cs ih => exact fault?_encodeChar c ih
  exact h text.toList

/-! ## Bytes of which more may follow

`decodeNext` waits for nothing but the bytes of the character in front, so its answers about some
bytes stay the same when more bytes come.
-/

/-- What is said of the first bytes of `length` bytes lies within them. -/
def Next.Fits (length : Nat) : Next → Prop
  | .char _ width => 1 ≤ width ∧ width ≤ length
  | .invalid index => index < length
  | .incomplete => True

theorem fits_decodeTwo (b : UInt8) (rest : Bytes) : (decodeTwo b rest).Fits (rest.length + 1) := by
  unfold decodeTwo
  split
  · trivial
  · split <;> simp only [Next.Fits, List.length_cons] <;> omega

theorem fits_decodeThree (b least greatest : UInt8) (rest : Bytes) :
    (decodeThree b least greatest rest).Fits (rest.length + 1) := by
  unfold decodeThree
  repeat' split
  all_goals simp only [Next.Fits, List.length_cons] <;> omega

theorem fits_decodeFour (b least greatest : UInt8) (rest : Bytes) :
    (decodeFour b least greatest rest).Fits (rest.length + 1) := by
  unfold decodeFour
  repeat' split
  all_goals simp only [Next.Fits, List.length_cons] <;> omega

theorem fits_decodeNext (bytes : Bytes) : (decodeNext bytes).Fits bytes.length := by
  cases bytes with
  | nil => trivial
  | cons b rest =>
    have h₂ := fits_decodeTwo b rest
    have h₃ := fun least greatest => fits_decodeThree b least greatest rest
    have h₄ := fun least greatest => fits_decodeFour b least greatest rest
    have h₁ : (Next.char (.ofNat b.toNat) 1).Fits (rest.length + 1) := by
      simp only [Next.Fits]
      omega
    have h₀ : (Next.invalid 0).Fits (rest.length + 1) := Nat.succ_pos _
    rw [List.length_cons, decodeNext]
    repeat' split
    all_goals first | exact h₀ | exact h₁ | exact h₂ | exact h₃ _ _ | exact h₄ _ _

theorem decodeTwo_append (b : UInt8) {rest : Bytes} (h : decodeTwo b rest ≠ .incomplete)
    (more : Bytes) : decodeTwo b (rest ++ more) = decodeTwo b rest := by
  cases rest with
  | nil => exact absurd rfl h
  | cons => rfl

theorem decodeThree_append (b least greatest : UInt8) {rest : Bytes}
    (h : decodeThree b least greatest rest ≠ .incomplete) (more : Bytes) :
    decodeThree b least greatest (rest ++ more) = decodeThree b least greatest rest := by
  rcases rest with _ | ⟨b₁, _ | ⟨b₂, rest⟩⟩
  · exact absurd rfl h
  · unfold decodeThree at h ⊢
    simp only [List.cons_append, List.nil_append] at h ⊢
    split at h
    · exact absurd rfl h
    · next hb => rw [if_neg hb, if_neg hb]
  · rfl

theorem decodeFour_append (b least greatest : UInt8) {rest : Bytes}
    (h : decodeFour b least greatest rest ≠ .incomplete) (more : Bytes) :
    decodeFour b least greatest (rest ++ more) = decodeFour b least greatest rest := by
  rcases rest with _ | ⟨b₁, _ | ⟨b₂, _ | ⟨b₃, rest⟩⟩⟩
  · exact absurd rfl h
  · unfold decodeFour at h ⊢
    simp only [List.cons_append, List.nil_append] at h ⊢
    split at h
    · exact absurd rfl h
    · next hb => rw [if_neg hb, if_neg hb]
  · unfold decodeFour at h ⊢
    simp only [List.cons_append, List.nil_append] at h ⊢
    split at h
    · next hb =>
      rw [if_pos hb, if_pos hb]
      split at h
      · exact absurd rfl h
      · next hb₂ => rw [if_neg hb₂, if_neg hb₂]
    · next hb => rw [if_neg hb, if_neg hb]
  · rfl

theorem decodeNext_append {bytes : Bytes} (h : decodeNext bytes ≠ .incomplete) (more : Bytes) :
    decodeNext (bytes ++ more) = decodeNext bytes := by
  cases bytes with
  | nil => exact absurd rfl h
  | cons b rest =>
    rw [List.cons_append]
    unfold decodeNext at h ⊢
    grind [decodeTwo_append, decodeThree_append, decodeFour_append]

/-- `decodeNext_append` for bytes with a first one, which is the form that readers recurse on. -/
theorem decodeNext_cons_append {b : UInt8} {rest : Bytes} {next : Next}
    (h : decodeNext (b :: rest) = next) (hne : next ≠ .incomplete) (more : Bytes) :
    decodeNext (b :: (rest ++ more)) = next := by
  rw [← List.cons_append, decodeNext_append (h ▸ hne), h]

theorem width_of_decodeNext {b : UInt8} {rest : Bytes} {c : Char} {width : Nat}
    (h : decodeNext (b :: rest) = .char c width) : 1 ≤ width ∧ width ≤ rest.length + 1 := by
  have := fits_decodeNext (b :: rest)
  rw [h] at this
  exact this

theorem index_of_decodeNext {b : UInt8} {rest : Bytes} {index : Nat}
    (h : decodeNext (b :: rest) = .invalid index) : index < rest.length + 1 := by
  have := fits_decodeNext (b :: rest)
  rw [h] at this
  exact this

/-- What is left after a character grows with the bytes. -/
theorem drop_append_of_decodeNext {b : UInt8} {rest : Bytes} {c : Char} {width : Nat}
    (h : decodeNext (b :: rest) = .char c width) (more : Bytes) :
    (rest ++ more).drop (width - 1) = rest.drop (width - 1) ++ more := by
  have := width_of_decodeNext h
  rw [List.drop_append_of_le_length (by omega)]

theorem offset_le_of_fault? {bytes : Bytes} {fault : Fault} (h : fault? bytes = some fault) :
    fault.offset ≤ bytes.length := by
  fun_induction fault? bytes generalizing fault with
  | case1 => cases h
  | case2 b rest c width hnext ih =>
    obtain ⟨f, hf, rfl⟩ := Option.map_eq_some_iff.1 h
    have := ih hf
    have := width_of_decodeNext hnext
    simp only [Fault.shift, List.length_drop, List.length_cons] at *
    omega
  | case3 =>
    cases h
    exact Nat.zero_le _
  | case4 =>
    cases h
    exact Nat.zero_le _

/-! ## Encoding what was decoded -/

theorem toNat_ofNat_of_valid {n : Nat} (h : n < 0xD800 ∨ 0xDFFF < n ∧ n < 0x110000) :
    (Char.ofNat n).toNat = n := by
  have hvalid : n.isValidChar := h
  rw [Char.ofNat, dif_pos hvalid]
  rfl

theorem eq_ofNat {b : UInt8} {n : Nat} (h : b.toNat = n) : b = .ofNat n := by
  rw [← h, UInt8.ofNat_toNat]

theorem encodeChar_of_two {lead b₁ : UInt8} (h : 0xC2 ≤ lead.toNat) (h' : lead.toNat < 0xE0)
    (h₁ : isContinuation b₁) :
    encodeChar (.ofNat (lead.toNat % 32 * 64 + low b₁)) = [lead, b₁] := by
  rw [isContinuation_iff] at h₁
  rw [encodeChar, toNat_ofNat_of_valid (by rw [low]; omega), low]
  rw [if_neg (by omega), if_pos (by omega), ← eq_ofNat (b := lead) (by omega),
    ← eq_ofNat (b := b₁) (by omega)]

theorem encodeChar_of_three {lead b₁ b₂ : UInt8} (h : 0xE0 ≤ lead.toNat) (h' : lead.toNat < 0xF0)
    (h₁ : isContinuation b₁) (h₂ : isContinuation b₂) (hlow : lead.toNat = 0xE0 → 0xA0 ≤ b₁.toNat)
    (hsurrogate : lead.toNat = 0xED → b₁.toNat ≤ 0x9F) :
    encodeChar (.ofNat (lead.toNat % 16 * 4096 + low b₁ * 64 + low b₂)) = [lead, b₁, b₂] := by
  rw [isContinuation_iff] at h₁ h₂
  rw [encodeChar, toNat_ofNat_of_valid (by rw [low, low]; omega), low, low]
  rw [if_neg (by omega), if_neg (by omega), if_pos (by omega), ← eq_ofNat (b := lead) (by omega),
    ← eq_ofNat (b := b₁) (by omega), ← eq_ofNat (b := b₂) (by omega)]

theorem encodeChar_of_four {lead b₁ b₂ b₃ : UInt8} (h : 0xF0 ≤ lead.toNat) (h' : lead.toNat ≤ 0xF4)
    (h₁ : isContinuation b₁) (h₂ : isContinuation b₂) (h₃ : isContinuation b₃)
    (hlow : lead.toNat = 0xF0 → 0x90 ≤ b₁.toNat) (hlast : lead.toNat = 0xF4 → b₁.toNat ≤ 0x8F) :
    encodeChar (.ofNat (lead.toNat % 8 * 262144 + low b₁ * 4096 + low b₂ * 64 + low b₃))
      = [lead, b₁, b₂, b₃] := by
  rw [isContinuation_iff] at h₁ h₂ h₃
  rw [encodeChar, toNat_ofNat_of_valid (by rw [low, low, low]; omega), low, low, low]
  rw [if_neg (by omega), if_neg (by omega), if_neg (by omega), ← eq_ofNat (b := lead) (by omega),
    ← eq_ofNat (b := b₁) (by omega), ← eq_ofNat (b := b₂) (by omega),
    ← eq_ofNat (b := b₃) (by omega)]

theorem take_of_decodeTwo {lead : UInt8} {rest : Bytes} {c : Char} {width : Nat}
    (h : 0xC2 ≤ lead.toNat) (h' : lead.toNat < 0xE0)
    (hnext : decodeTwo lead rest = .char c width) : (lead :: rest).take width = encodeChar c := by
  unfold decodeTwo at hnext
  split at hnext
  · cases hnext
  · split at hnext
    · next h₁ =>
      cases hnext
      exact (encodeChar_of_two h h' h₁).symm
    · cases hnext

theorem take_of_decodeThree {lead least greatest : UInt8} {rest : Bytes} {c : Char} {width : Nat}
    (h : 0xE0 ≤ lead.toNat) (h' : lead.toNat < 0xF0) (hleast : 0x80 ≤ least.toNat)
    (hgreatest : greatest.toNat ≤ 0xBF) (hlow : lead.toNat = 0xE0 → 0xA0 ≤ least.toNat)
    (hsurrogate : lead.toNat = 0xED → greatest.toNat ≤ 0x9F)
    (hnext : decodeThree lead least greatest rest = .char c width) :
    (lead :: rest).take width = encodeChar c := by
  unfold decodeThree at hnext
  split at hnext
  · cases hnext
  · next b₁ later =>
    split at hnext
    · next h₁ =>
      rw [Bool.and_eq_true, decide_eq_true_eq, decide_eq_true_eq, UInt8.le_iff_toNat_le,
        UInt8.le_iff_toNat_le] at h₁
      have hb₁ : isContinuation b₁ := isContinuation_iff.2 (by omega)
      split at hnext
      · cases hnext
      · split at hnext
        · next h₂ =>
          cases hnext
          exact (encodeChar_of_three h h' hb₁ h₂ (by omega) (by omega)).symm
        · cases hnext
    · cases hnext

theorem take_of_decodeFour {lead least greatest : UInt8} {rest : Bytes} {c : Char} {width : Nat}
    (h : 0xF0 ≤ lead.toNat) (h' : lead.toNat ≤ 0xF4) (hleast : 0x80 ≤ least.toNat)
    (hgreatest : greatest.toNat ≤ 0xBF) (hlow : lead.toNat = 0xF0 → 0x90 ≤ least.toNat)
    (hlast : lead.toNat = 0xF4 → greatest.toNat ≤ 0x8F)
    (hnext : decodeFour lead least greatest rest = .char c width) :
    (lead :: rest).take width = encodeChar c := by
  unfold decodeFour at hnext
  split at hnext
  · cases hnext
  · next b₁ later =>
    split at hnext
    · next h₁ =>
      rw [Bool.and_eq_true, decide_eq_true_eq, decide_eq_true_eq, UInt8.le_iff_toNat_le,
        UInt8.le_iff_toNat_le] at h₁
      have hb₁ : isContinuation b₁ := isContinuation_iff.2 (by omega)
      split at hnext
      · cases hnext
      · split at hnext
        · next h₂ =>
          split at hnext
          · cases hnext
          · split at hnext
            · next h₃ =>
              cases hnext
              exact (encodeChar_of_four h h' hb₁ h₂ h₃ (by omega) (by omega)).symm
            · cases hnext
        · cases hnext
    · cases hnext

/-- A character was read from its own bytes: there is no other form of it. -/
theorem take_of_decodeNext {b : UInt8} {rest : Bytes} {c : Char} {width : Nat}
    (h : decodeNext (b :: rest) = .char c width) : (b :: rest).take width = encodeChar c := by
  unfold decodeNext at h
  simp only [UInt8.lt_iff_toNat_lt, ← UInt8.toNat_inj, UInt8.toNat_ofNat] at h
  split at h
  · next hone =>
    cases h
    rw [encodeChar, toNat_ofNat_of_valid (by omega), if_pos hone, UInt8.ofNat_toNat]
    rfl
  repeat' split at h
  · cases h
  · exact take_of_decodeTwo (by omega) (by omega) h
  · exact take_of_decodeThree (by omega) (by omega) (by decide) (by decide) (fun _ => by decide) (by omega) h
  · exact take_of_decodeThree (by omega) (by omega) (by decide) (by decide) (by omega) (fun _ => by decide) h
  · exact take_of_decodeThree (by omega) (by omega) (by decide) (by decide) (by omega) (by omega) h
  · exact take_of_decodeFour (by omega) (by omega) (by decide) (by decide) (fun _ => by decide) (by omega) h
  · exact take_of_decodeFour (by omega) (by omega) (by decide) (by decide) (by omega) (by omega) h
  · exact take_of_decodeFour (by omega) (by omega) (by decide) (by decide) (by omega) (fun _ => by decide) h
  · cases h

theorem eq_flatMap_of_readings {bytes : Bytes} {cs : List Char}
    (h : readings bytes = cs.map some) : bytes = cs.flatMap encodeChar := by
  fun_induction readings bytes generalizing cs with
  | case1 =>
    rw [List.map_eq_nil_iff.1 h.symm]
    rfl
  | case2 b rest c width hnext ih =>
    obtain ⟨c', later, rfl, hc, hlater⟩ := List.map_eq_cons_iff.1 h.symm
    cases hc
    have hwidth := width_of_decodeNext hnext
    have hdrop : rest.drop (width - 1) = (b :: rest).drop width := by
      rw [← List.drop_succ_cons (a := b), Nat.sub_add_cancel hwidth.1]
    rw [List.flatMap_cons, ← ih hlater.symm, hdrop, ← take_of_decodeNext hnext,
      List.take_append_drop]
  | case3 =>
    obtain ⟨c', later, rfl, hc, -⟩ := List.map_eq_cons_iff.1 h.symm
    cases hc
  | case4 =>
    obtain ⟨c', later, rfl, hc, -⟩ := List.map_eq_cons_iff.1 h.symm
    cases hc

theorem eq_map_some_of_mapM {readings : List (Option Char)} {cs : List Char}
    (h : readings.mapM id = some cs) : readings = cs.map some := by
  induction readings generalizing cs with
  | nil =>
    cases h
    rfl
  | cons reading rest ih =>
    rw [List.mapM_cons] at h
    obtain ⟨c, rfl, hrest⟩ := Option.bind_eq_some_iff.1 h
    obtain ⟨later, hlater, hsame⟩ := Option.bind_eq_some_iff.1 hrest
    cases hsame
    exact congrArg (some c :: ·) (ih hlater)

/-- Bytes are the encoding of the text that they decode to. -/
theorem decode?_eq_some_iff {bytes : Bytes} {text : String} :
    decode? bytes = some text ↔ bytes = encode text := by
  constructor
  · intro h
    obtain ⟨cs, hcs, rfl⟩ := Option.map_eq_some_iff.1 h
    rw [encode_ofList]
    exact eq_flatMap_of_readings (eq_map_some_of_mapM hcs)
  · rintro rfl
    exact decode?_encode text

theorem encode_injective : Function.Injective encode := by
  intro a b h
  have hdecode : decode? (encode a) = some b := decode?_eq_some_iff.2 h
  rw [decode?_encode] at hdecode
  exact Option.some.inj hdecode

/-- Bytes have no undecodable part just if they are a text. -/
theorem fault?_eq_none_iff {bytes : Bytes} : fault? bytes = none ↔ ∃ text, bytes = encode text := by
  constructor
  · intro h
    have hall : ∃ cs : List Char, readings bytes = cs.map some := by
      fun_induction fault? bytes with
      | case1 => exact ⟨[], by rw [readings]; rfl⟩
      | case2 b rest c width hnext ih =>
        obtain ⟨cs, hcs⟩ := ih (Option.map_eq_none_iff.1 h)
        refine ⟨c :: cs, ?_⟩
        rw [readings, hnext]
        exact congrArg (some c :: ·) hcs
      | case3 => cases h
      | case4 => cases h
    obtain ⟨cs, hcs⟩ := hall
    exact ⟨.ofList cs, by rw [encode_ofList, eq_flatMap_of_readings hcs]⟩
  · rintro ⟨text, rfl⟩
    exact fault?_encode text

/-! ## ASCII and the rest -/

theorem toNat_byte {d : Char} (hd : d.toNat < 0x80) : (byte d).toNat = d.toNat :=
  toNat_ofNat_of_lt (by omega)

theorem encodeChar_ascii {c : Char} (hc : c.toNat < 0x80) : encodeChar c = [byte c] := by
  rw [encodeChar, if_pos hc]
  rfl

/-- The bytes of a character past ASCII are past ASCII. -/
theorem le_of_mem_encodeChar {c : Char} (hc : 0x80 ≤ c.toNat) {b : UInt8}
    (hb : b ∈ encodeChar c) : 0x80 ≤ b.toNat := by
  have hvalid : c.toNat < 0xD800 ∨ 0xDFFF < c.toNat ∧ c.toNat < 0x110000 := c.valid
  have hlt : ∀ n, n < 256 → 0x80 ≤ n → 0x80 ≤ (UInt8.ofNat n).toNat := by
    intro n hn hle
    rw [toNat_ofNat_of_lt hn]
    exact hle
  rw [encodeChar, if_neg (by omega)] at hb
  split at hb
  · simp only [List.mem_cons, List.not_mem_nil, or_false] at hb
    rcases hb with rfl | rfl <;> exact hlt _ (by omega) (by omega)
  · split at hb
    · simp only [List.mem_cons, List.not_mem_nil, or_false] at hb
      rcases hb with rfl | rfl | rfl <;> exact hlt _ (by omega) (by omega)
    · simp only [List.mem_cons, List.not_mem_nil, or_false] at hb
      rcases hb with rfl | rfl | rfl | rfl <;> exact hlt _ (by omega) (by omega)

/-- An ASCII byte occurs in the encoding of its own character alone. -/
theorem byte_mem_encodeChar_iff {c d : Char} (hd : d.toNat < 0x80) :
    byte d ∈ encodeChar c ↔ c = d := by
  constructor
  · intro h
    by_cases hc : c.toNat < 0x80
    · rw [encodeChar_ascii hc, List.mem_singleton] at h
      have h := congrArg UInt8.toNat h
      rw [toNat_byte hd, toNat_byte hc] at h
      exact Char.toNat_inj.1 h.symm
    · have := le_of_mem_encodeChar (by omega) h
      rw [toNat_byte hd] at this
      omega
  · rintro rfl
    rw [encodeChar_ascii hd]
    exact List.mem_singleton_self _

/-- An ASCII byte of a text is a character of it. -/
theorem mem_decodeLossy_of_byte {d : Char} (hd : d.toNat < 0x80) {bytes : Bytes}
    (hfault : fault? bytes = none) (h : byte d ∈ bytes) : d ∈ (decodeLossy bytes).toList := by
  obtain ⟨text, rfl⟩ := fault?_eq_none_iff.1 hfault
  obtain ⟨c, hc, hmem⟩ := List.mem_flatMap.1 h
  rw [decodeLossy_encode, ← (byte_mem_encodeChar_iff hd).1 hmem]
  exact hc

end TidyTrig.Utf8
