import TidyTrig.Proofs.Basic
import TidyTrig.Proofs.Trig.Lookahead
import TidyTrig.Trig.Spelling

/-!
# Names are read as they are spelled

Prefix names, plain local names and blank node labels have no closing mark, so each is read back
only in front of a character that cannot go on with it. `isPrefixName` and `isLabel` describe the
names and the labels that a document can spell; the scanners are followed along such a name a
character at a time.
-/

namespace TidyTrig.Trig

open Utf8

/-! ## The names that can be spelled -/

/-- Whether a document can declare a prefix of this name: none at all, or one that starts like a
name and does not end with a dot. -/
def isPrefixName : List Char → Bool
  | [] => true
  | c :: cs =>
    isNameStart c && cs.all (fun d => isNameChar d || d = '.') && (c :: cs).getLast? ≠ some '.'

/-- Whether these characters can go on with a label and end it. No dot follows another. -/
def isLabelTail (afterDot : Bool) : List Char → Bool
  | [] => !afterDot
  | c :: cs =>
    if c = '.' then !afterDot && isLabelTail true cs else isNameChar c && isLabelTail false cs

/-- Whether a document can spell a blank node with this label. -/
def isLabel : List Char → Bool
  | [] => false
  | c :: cs => (isLabelStart c || c.isDigit) && isLabelTail false cs

/-! ## Characters -/

theorem isNameChar_of_isLabelStart {c : Char} (h : isLabelStart c) : isNameChar c := by
  simp [isNameChar, h]

theorem isNameChar_of_isNameStart {c : Char} (h : isNameStart c) : isNameChar c := by
  apply isNameChar_of_isLabelStart
  simp [isLabelStart, h]

theorem isNameChar_of_isDigit {c : Char} (h : c.isDigit) : isNameChar c := by
  simp [isNameChar, h]

theorem isNameChar_of_isPlainNameChar {c : Char} (h : isPlainNameChar c) : isNameChar c := by
  simp only [isPlainNameChar, Char.isAlphanum, Bool.or_eq_true, decide_eq_true_eq] at h
  simp only [isNameChar, isLabelStart, isNameStart, Bool.or_eq_true, decide_eq_true_eq]
  rcases h with ((h | h) | h) | h
  · simp [h]
  · simp [h]
  · simp [h]
  · simp [h]

/-- Plain names are ASCII. -/
theorem lt_of_isPlainNameChar {c : Char} (h : isPlainNameChar c) : c.toNat < 0x80 := by
  simp only [isPlainNameChar, Bool.or_eq_true, decide_eq_true_eq, isAlphanum_iff] at h
  rcases h with (h | rfl) | rfl
  · omega
  · decide
  · decide

/-! ## A character at a time -/

theorem scanName_encodeChar (ended : Bool) (read : List Char) (size : Nat) (c : Char)
    (rest : Bytes) :
    scanName ended read size (encodeChar c ++ rest) =
      if c = ':' then scanAfterColon ended read.reverse (size + 1) rest
      else if read.isEmpty then
        if isNameStart c then scanName ended [c] (encodeChar c).length rest
        else .fault (.nameStart c) 0 (encodeChar c).length
      else if isNameChar c || c = '.' then
        scanName ended (c :: read) (size + (encodeChar c).length) rest
      else closeKeyword read size := by
  obtain ⟨b, tail, hc⟩ := exists_encodeChar_eq_cons c
  have hnext := decodeNext_encodeChar c rest
  have hdrop := drop_of_encodeChar hc rest
  rw [hc, List.cons_append] at hnext ⊢
  rw [scanName_char _ _ _ hnext]
  by_cases hcolon : c = ':'
  · rw [if_pos hcolon, if_pos hcolon]
    rw [hcolon] at hc
    cases hc
    rfl
  · rw [hc] at hdrop
    rw [if_neg hcolon, if_neg hcolon, hdrop]

theorem scanLocal_encodeChar (ended : Bool) (draft : LocalName.Draft) {c : Char}
    (hpercent : c ≠ '%') (hbackslash : c ≠ '\\') (rest : Bytes) :
    scanLocal ended draft (encodeChar c ++ rest) =
      if c = ':' || (if draft.size = 0 then isLabelStart c || c.isDigit else isNameChar c) then
        scanLocal ended (draft.add [c] (c = ':' || isDoubtfulInIri c) (encodeChar c).length) rest
      else if c = '.' && draft.size ≠ 0 then scanLocal ended draft.addDot rest
      else draft.close := by
  obtain ⟨b, tail, hc⟩ := exists_encodeChar_eq_cons c
  have hnext := decodeNext_encodeChar c rest
  have hdrop := drop_of_encodeChar hc rest
  have hne : ∀ d : Char, d.toNat < 0x80 → c ≠ d → b ≠ byte d := by
    intro d hd hcd hb
    apply hcd
    rw [← byte_mem_encodeChar_iff hd, hc, ← hb]
    exact List.mem_cons_self
  rw [hc] at hdrop
  rw [hc, List.cons_append] at hnext ⊢
  rw [scanLocal_char _ _ (hne '%' (by decide) hpercent) (hne '\\' (by decide) hbackslash) hnext,
    hdrop]

theorem scanLabel_encodeChar (read : List Char) (size : Nat) (c : Char) (rest : Bytes) :
    scanLabel read size (encodeChar c ++ rest) =
      let withoutDot := if read.head? = some '.' then 1 else 0
      if read.isEmpty then
        if isLabelStart c || c.isDigit then scanLabel [c] (size + (encodeChar c).length) rest
        else .fault .emptyLabel 0 size
      else if isNameChar c || (c = '.' && withoutDot = 0) then
        scanLabel (c :: read) (size + (encodeChar c).length) rest
      else .found (.blank (.ofList (read.drop withoutDot).reverse)) (size - withoutDot) := by
  obtain ⟨b, tail, hc⟩ := exists_encodeChar_eq_cons c
  have hnext := decodeNext_encodeChar c rest
  have hdrop := drop_of_encodeChar hc rest
  rw [hc] at hdrop
  rw [hc, List.cons_append] at hnext ⊢
  rw [scanLabel, hnext]
  dsimp only
  rw [hdrop]

/-! ## Whole names -/

/-- The characters of a name are taken one after the other, up to its colon. -/
theorem scanName_chars (ended : Bool) {cs : List Char}
    (hcs : cs.all (fun d => isNameChar d || d = '.')) (read : List Char) (hread : read ≠ [])
    (size : Nat) (rest : Bytes) :
    scanName ended read size (cs.flatMap encodeChar ++ byte ':' :: rest)
      = scanAfterColon ended (read.reverse ++ cs) (size + (cs.flatMap encodeChar).length + 1)
        rest := by
  have hcolon : byte ':' :: rest = encodeChar ':' ++ rest := rfl
  induction cs generalizing read size with
  | nil =>
    rw [List.flatMap_nil, List.nil_append, hcolon, scanName_encodeChar, if_pos rfl,
      List.append_nil]
    rfl
  | cons c cs ih =>
    rw [List.all_cons, Bool.and_eq_true] at hcs
    have hne : c ≠ ':' := by
      rintro rfl
      exact absurd hcs.1 (by decide)
    have hempty : read.isEmpty = false := List.isEmpty_eq_false_iff.2 hread
    rw [List.flatMap_cons, List.append_assoc, scanName_encodeChar, if_neg hne, hempty,
      if_neg Bool.false_ne_true, if_pos hcs.1, ih hcs.2 (c :: read) (List.cons_ne_nil _ _),
      List.reverse_cons, List.append_assoc, List.singleton_append, List.length_append]
    congr 1
    omega

/-- A prefix name and its colon are passed. -/
theorem scanName_prefixName (ended : Bool) {name : List Char} (hname : isPrefixName name)
    (rest : Bytes) :
    scanName ended [] 0 (name.flatMap encodeChar ++ byte ':' :: rest)
      = scanAfterColon ended name ((name.flatMap encodeChar).length + 1) rest := by
  cases name with
  | nil =>
    have hcolon : byte ':' :: rest = encodeChar ':' ++ rest := rfl
    rw [List.flatMap_nil, List.nil_append, hcolon, scanName_encodeChar, if_pos rfl]
    rfl
  | cons c cs =>
    simp only [isPrefixName, Bool.and_eq_true] at hname
    have hne : c ≠ ':' := by
      rintro rfl
      exact absurd hname.1.1 (by decide)
    rw [List.flatMap_cons, List.append_assoc, scanName_encodeChar, if_neg hne, List.isEmpty_nil,
      if_pos rfl, if_pos hname.1.1,
      scanName_chars ended hname.1.2 [c] (List.cons_ne_nil _ _), List.length_append]
    rfl

theorem getLast?_ne_of_isPrefixName {name : List Char} (hname : isPrefixName name) :
    name.getLast? ≠ some '.' := by
  cases name with
  | nil => exact nofun
  | cons c cs =>
    simp only [isPrefixName, Bool.and_eq_true, decide_eq_true_eq] at hname
    exact hname.2

/-- What may follow a name: a character that cannot go on with it. -/
def endsName (c : Char) : Bool :=
  !(isNameChar c || c = ':' || c = '.' || c = '%' || c = '\\')

theorem isDoubtfulInIri_of_isPlainNameChar {c : Char} (h : isPlainNameChar c) :
    isDoubtfulInIri c = false := by
  have hlt := lt_of_isPlainNameChar h
  have hpos : c.toNat ≠ 0 := by
    intro hzero
    have hc : c = '\x00' := Char.toNat_inj.1 hzero
    rw [hc] at h
    exact absurd h (by decide)
  simp only [isDoubtfulInIri, Bool.or_eq_false_iff, Bool.and_eq_false_iff, decide_eq_false_iff_not]
  omega

theorem ne_of_isPlainNameChar {c d : Char} (h : isPlainNameChar c) (hd : isPlainNameChar d = false) :
    c ≠ d := by
  rintro rfl
  rw [h] at hd
  cases hd

theorem all_of_isPlainName {name : List Char} (h : isPlainName name) : name.all isPlainNameChar := by
  cases name with
  | nil => rfl
  | cons c cs =>
    rw [isPlainName, Bool.and_eq_true] at h
    have hc : isPlainNameChar c := by
      have hfirst := h.1
      rw [Bool.or_eq_true] at hfirst
      rcases hfirst with hfirst | hfirst
      · simp [isPlainNameChar, hfirst]
      · simp [isPlainNameChar, hfirst]
    rw [List.all_cons, hc, h.2]
    rfl

/-- In a plain name there are plain characters alone. -/
theorem not_mem_of_isPlainName {name : List Char} (h : isPlainName name) {c : Char}
    (hc : isPlainNameChar c = false) : c ∉ name := by
  intro hmem
  exact ne_of_isPlainNameChar (List.all_eq_true.1 (all_of_isPlainName h) c hmem) hc rfl

/-- After its first character, a plain local name is passed character by character. -/
theorem scanLocal_chars (ended : Bool) {cs : List Char} (hcs : cs.all isPlainNameChar)
    (read : List Char) {size : Nat} (hsize : size ≠ 0) (rest : Bytes) :
    scanLocal ended ⟨read, none, 0, false, size⟩ (cs.flatMap encodeChar ++ rest)
      = scanLocal ended ⟨cs.reverse ++ read, none, 0, false, size + (cs.flatMap encodeChar).length⟩
        rest := by
  induction cs generalizing read size with
  | nil => rfl
  | cons c cs ih =>
    rw [List.all_cons, Bool.and_eq_true] at hcs
    have hcolon : c ≠ ':' := ne_of_isPlainNameChar hcs.1 (by decide)
    have hdoubt := isDoubtfulInIri_of_isPlainNameChar hcs.1
    have hsize' : size + (encodeChar c).length ≠ 0 := by omega
    rw [List.flatMap_cons, List.append_assoc,
      scanLocal_encodeChar _ _ (ne_of_isPlainNameChar hcs.1 (by decide))
        (ne_of_isPlainNameChar hcs.1 (by decide)),
      if_pos (by simp [hsize, isNameChar_of_isPlainNameChar hcs.1])]
    have hadd : LocalName.Draft.add ⟨read, none, 0, false, size⟩ [c]
        (c = ':' || isDoubtfulInIri c) (encodeChar c).length
        = ⟨c :: read, none, 0, false, size + (encodeChar c).length⟩ := by
      simp [LocalName.Draft.add, hcolon, hdoubt]
    rw [hadd, ih hcs.2 (c :: read) hsize', List.reverse_cons, List.append_assoc,
      List.singleton_append, List.length_append, Nat.add_assoc]

/-- A plain local name is read back in front of what ends a name. -/
theorem scanLocal_plainName (ended : Bool) {name : List Char} (hname : isPlainName name)
    {e : Char} (he : endsName e) (rest : Bytes) :
    scanLocal ended .empty (name.flatMap encodeChar ++ (encodeChar e ++ rest))
      = .found ⟨.ofList name, false⟩ (name.flatMap encodeChar).length := by
  simp only [endsName, Bool.not_eq_true', Bool.or_eq_false_iff, decide_eq_false_iff_not] at he
  have hstart : (isLabelStart e || e.isDigit) = false := by
    by_cases h : (isLabelStart e || e.isDigit) = true
    · have hchar : isNameChar e := by
        rcases Bool.or_eq_true _ _ ▸ h with h | h
        · exact isNameChar_of_isLabelStart h
        · exact isNameChar_of_isDigit h
      rw [he.1.1.1.1] at hchar
      cases hchar
    · exact Bool.eq_false_iff.2 h
  -- Whatever was read so far without dots at its end, the name is closed before `e`.
  have hclose : ∀ (read : List Char) (size : Nat),
      scanLocal ended ⟨read, none, 0, false, size⟩ (encodeChar e ++ rest)
        = .found ⟨.ofList read.reverse, false⟩ size := by
    intro read size
    rw [scanLocal_encodeChar _ _ he.1.2 he.2, if_neg (by simp [he.1.1.1.2, hstart, he.1.1.1.1]),
      if_neg (by simp [he.1.1.2])]
    rfl
  cases name with
  | nil => exact hclose [] 0
  | cons c cs =>
    simp only [isPlainName, Bool.and_eq_true, Bool.or_eq_true, decide_eq_true_eq] at hname
    have hplain : isPlainNameChar c := by
      simp only [isPlainNameChar, Bool.or_eq_true, decide_eq_true_eq]
      exact .inl hname.1
    have hcolon : c ≠ ':' := ne_of_isPlainNameChar hplain (by decide)
    have hfirst : (isLabelStart c || c.isDigit) = true := by
      rcases hname.1 with h | rfl
      · simp only [Char.isAlphanum, Bool.or_eq_true] at h
        simp only [isLabelStart, isNameStart, Bool.or_eq_true]
        rcases h with h | h
        · simp [h]
        · simp [h]
      · decide
    have hpos := length_encodeChar_pos c
    rw [List.flatMap_cons, List.append_assoc,
      scanLocal_encodeChar _ _ (ne_of_isPlainNameChar hplain (by decide))
        (ne_of_isPlainNameChar hplain (by decide)),
      if_pos (by simp [LocalName.Draft.empty, hfirst])]
    have hadd : LocalName.Draft.add .empty [c] (c = ':' || isDoubtfulInIri c)
        (encodeChar c).length = ⟨[c], none, 0, false, (encodeChar c).length⟩ := by
      simp [LocalName.Draft.add, LocalName.Draft.empty, hcolon,
        isDoubtfulInIri_of_isPlainNameChar hplain]
    rw [hadd, scanLocal_chars ended hname.2 [c] (by omega), hclose, List.reverse_append,
      List.reverse_reverse, List.length_append]
    rfl

/-- A label is passed up to what ends it. -/
theorem scanLabel_chars {cs : List Char} {e : Char} (he : endsName e) (read : List Char)
    (hread : read ≠ []) (size : Nat) (rest : Bytes)
    (hcs : isLabelTail (read.head? = some '.') cs) :
    scanLabel read size (cs.flatMap encodeChar ++ (encodeChar e ++ rest))
      = .found (.blank (.ofList (read.reverse ++ cs))) (size + (cs.flatMap encodeChar).length) := by
  simp only [endsName, Bool.not_eq_true', Bool.or_eq_false_iff, decide_eq_false_iff_not] at he
  induction cs generalizing read size with
  | nil =>
    have hdot : read.head? ≠ some '.' := by
      simpa [isLabelTail] using hcs
    have hempty : read.isEmpty = false := List.isEmpty_eq_false_iff.2 hread
    rw [List.flatMap_nil, List.nil_append, scanLabel_encodeChar]
    dsimp only
    rw [hempty, if_neg Bool.false_ne_true, if_neg hdot,
      if_neg (by simp [he.1.1.1.1, he.1.1.2]), List.append_nil]
    rfl
  | cons c cs ih =>
    have hempty : read.isEmpty = false := List.isEmpty_eq_false_iff.2 hread
    have hpass : (isNameChar c || (c = '.' && (if read.head? = some '.' then 1 else 0) = 0))
        = true ∧ isLabelTail (c = '.') cs := by
      rw [isLabelTail] at hcs
      by_cases hc : c = '.'
      · rw [if_pos hc, Bool.and_eq_true, Bool.not_eq_true', decide_eq_false_iff_not] at hcs
        rw [if_neg hcs.1]
        refine ⟨by simp [hc], ?_⟩
        simpa [hc] using hcs.2
      · rw [if_neg hc, Bool.and_eq_true] at hcs
        refine ⟨by simp [hcs.1], ?_⟩
        simpa [hc] using hcs.2
    rw [List.flatMap_cons, List.append_assoc, scanLabel_encodeChar]
    dsimp only
    rw [hempty, if_neg Bool.false_ne_true, if_pos hpass.1,
      ih (c :: read) (List.cons_ne_nil _ _) _ (by simpa using hpass.2), List.reverse_cons,
      List.append_assoc, List.singleton_append, List.length_append, Nat.add_assoc]

/-- A label is read back in front of what ends a name. -/
theorem scanLabel_label {label : List Char} (hlabel : isLabel label) {e : Char}
    (he : endsName e) (rest : Bytes) :
    scanLabel [] 2 (label.flatMap encodeChar ++ (encodeChar e ++ rest))
      = .found (.blank (.ofList label)) (2 + (label.flatMap encodeChar).length) := by
  cases label with
  | nil => cases hlabel
  | cons c cs =>
    rw [isLabel, Bool.and_eq_true] at hlabel
    have hdot : c ≠ '.' := by
      rintro rfl
      exact absurd hlabel.1 (by decide)
    rw [List.flatMap_cons, List.append_assoc, scanLabel_encodeChar]
    dsimp only
    rw [List.isEmpty_nil, if_pos rfl, if_pos hlabel.1,
      scanLabel_chars he [c] (List.cons_ne_nil _ _) _ _ (by simpa [hdot] using hlabel.2),
      List.length_append, Nat.add_assoc]
    rfl

end TidyTrig.Trig
