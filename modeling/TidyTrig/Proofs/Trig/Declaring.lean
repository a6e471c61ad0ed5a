import TidyTrig.Proofs.Trig.Rescan

/-!
# What is written declares what was declared

A scan of what the writer has written finds the directives that it wrote and nothing else, with
one exception: where a line starts with a label that ends like a keyword, the predicate has no local
name and the object is an IRI in brackets, the line reads like a directive (`mistaken?`). `found`
tells all that a scan finds, and `Finds` is the invariant that the operations of the writer keep.
-/

namespace TidyTrig.Trig

open Utf8 Directive

/-- What a scan takes the line of a statement for: a directive, if its subject ends like a keyword
and its predicate and object have the form of what follows one. -/
def mistaken? (inForce : List Namespace) (usesKeyword : Bool) (s : Statement) : Option Namespace :=
  match s.subject, s.object with
  | .blank label, .iri iri =>
    let verb := (spellPredicate inForce usesKeyword s.predicate).toList
    if endsLikeKeyword label && verb.getLast? = some ':' && (longest (abbreviations inForce iri)).isNone
    then some ⟨.ofList verb.dropLast, iri⟩
    else none
  | _, _ => none

/-! ## Predicates -/

theorem isBlank_of_mem_encode {text : String}
    (h : ∀ d ∈ text.toList, d ≠ ' ' ∧ d ≠ '\t' ∧ d ≠ '\r' ∧ d ≠ '\n') {b : UInt8}
    (hb : b ∈ encode text) : isBlank b = false := by
  cases hblank : isBlank b with
  | false => rfl
  | true =>
    have hnot : ∀ d : Char, d.toNat < 0x80 → d ∉ text.toList → b ≠ byte d := by
      intro d hd hmem heq
      exact hmem ((byte_mem_encode_iff hd).1 (heq ▸ hb))
    rw [isBlank, Bool.or_eq_true, Bool.or_eq_true, Bool.or_eq_true, decide_eq_true_eq,
      decide_eq_true_eq, decide_eq_true_eq, decide_eq_true_eq] at hblank
    rcases hblank with ((rfl | rfl) | rfl) | rfl
    · exact absurd rfl (hnot ' ' (by decide) fun hmem => (h _ hmem).1 rfl)
    · exact absurd rfl (hnot '\t' (by decide) fun hmem => (h _ hmem).2.1 rfl)
    · exact absurd rfl (hnot '\r' (by decide) fun hmem => (h _ hmem).2.2.1 rfl)
    · exact absurd rfl (hnot '\n' (by decide) fun hmem => (h _ hmem).2.2.2 rfl)

/-- No blank stands in an IRI. -/
theorem isBlank_of_mem_iri {iri : String} (h : isIri iri) {b : UInt8} (hb : b ∈ encode iri) :
    isBlank b = false := by
  obtain ⟨i, hi⟩ := exists_of_isIri h
  have hchars := Iri.all_isIriChar_of_ofChars hi
  refine isBlank_of_mem_encode ?_ hb
  intro d hd
  have hne : ∀ e : Char, Iri.isIriChar e = false → d ≠ e := by
    intro e he heq
    exact not_mem_of_all_isIriChar hchars he (heq ▸ hd)
  exact ⟨hne _ (by decide), hne _ (by decide), hne _ (by decide), hne _ (by decide)⟩

/-- The bytes of a prefixed name. -/
theorem encode_name (name localPart : List Char) :
    encode (.ofList name ++ ":" ++ .ofList localPart)
      = name.flatMap encodeChar ++ byte ':' :: localPart.flatMap encodeChar := by
  rw [encode_append, encode_append, encode_ofList name, encode_ofList localPart, List.append_assoc]
  rfl

/-- What a word can be that stands as the second one of a line. -/
structure IsVerbWord (verb : String) : Prop where
  isBlank_eq : ∀ b ∈ encode verb, isBlank b = false
  ne_nil : encode verb ≠ []
  angle : (encode verb).head? = some (byte '<') ∨ byte '<' ∉ encode verb
  colon : (encode verb).getLast? = some (byte ':') →
    ∃ name, isPrefixName name ∧ verb = .ofList name ++ ":"

theorem isVerbWord_a : IsVerbWord "a" := by
  have hword : encode "a" = [byte 'a'] := rfl
  refine ⟨?_, ?_, ?_, ?_⟩
  · rw [hword]
    decide +kernel
  · rw [hword]
    exact List.cons_ne_nil _ _
  · rw [hword]
    decide
  · rw [hword]
    intro h
    exact absurd (Option.some.inj h) (by decide)

theorem isVerbWord_angle {iri : String} (h : isIri iri) : IsVerbWord ("<" ++ iri ++ ">") := by
  have hword : encode ("<" ++ iri ++ ">") = byte '<' :: (encode iri ++ [byte '>']) := by
    rw [encode_append, encode_append, List.append_assoc]
    rfl
  refine ⟨?_, ?_, ?_, ?_⟩
  · intro b hb
    rw [hword, List.mem_cons, List.mem_append, List.mem_singleton] at hb
    rcases hb with rfl | hb | rfl
    · decide
    · exact isBlank_of_mem_iri h hb
    · decide
  · rw [hword]
    exact List.cons_ne_nil _ _
  · rw [hword]
    exact .inl rfl
  · rw [hword, ← List.cons_append, List.getLast?_concat]
    intro h
    exact absurd (Option.some.inj h) (by decide)

theorem isVerbWord_name {name localPart : List Char} (hname : isPrefixName name)
    (hlocal : isPlainName localPart) : IsVerbWord (.ofList name ++ ":" ++ .ofList localPart) := by
  have hnameChars := List.all_eq_true.1 (all_of_isPrefixName hname)
  have hlocalChars := List.all_eq_true.1 (all_of_isPlainName hlocal)
  have hchars : ∀ d ∈ (String.ofList name ++ ":" ++ String.ofList localPart).toList,
      isNameChar d || d = '.' || d = ':' := by
    intro d hd
    simp only [String.toList_append, String.toList_ofList, List.mem_append] at hd
    rcases hd with (hd | hd) | hd
    · rw [hnameChars d hd]
      rfl
    · rw [List.mem_singleton.1 hd]
      decide
    · rw [isNameChar_of_isPlainNameChar (hlocalChars d hd)]
      rfl
  have hne : ∀ d ∈ (String.ofList name ++ ":" ++ String.ofList localPart).toList, ∀ e : Char,
      (isNameChar e || e = '.' || e = ':') = false → d ≠ e := by
    intro d hd e he heq
    have hd := hchars d hd
    rw [heq, he] at hd
    cases hd
  refine ⟨?_, ?_, ?_, ?_⟩
  · intro b hb
    refine isBlank_of_mem_encode ?_ hb
    intro d hd
    exact ⟨hne d hd _ (by decide), hne d hd _ (by decide), hne d hd _ (by decide),
      hne d hd _ (by decide)⟩
  · rw [encode_name]
    exact List.append_ne_nil_of_right_ne_nil _ (List.cons_ne_nil _ _)
  · right
    intro hmem
    have hd := (byte_mem_encode_iff (by decide)).1 hmem
    exact hne _ hd '<' (by decide) rfl
  · rw [encode_name]
    intro hlast
    cases localPart with
    | nil => exact ⟨name, hname, String.append_empty⟩
    | cons d ds =>
      exfalso
      have hlast' : ((d :: ds).flatMap encodeChar).getLast? = some (byte ':') := by
        obtain ⟨b, tail, hb⟩ := exists_encodeChar_eq_cons d
        rw [List.getLast?_append, List.getLast?_cons] at hlast
        rw [← hlast, List.flatMap_cons, hb, List.cons_append, List.getLast?_cons]
        simp
      have hmem : ':' ∈ (String.ofList (d :: ds)).toList := by
        apply (byte_mem_encode_iff (by decide)).1
        rw [encode_ofList]
        exact List.mem_of_getLast? hlast'
      rw [String.toList_ofList] at hmem
      exact absurd (hlocalChars _ hmem) (by decide)

/-! ## Lines -/

/-- A margin is passed. -/
theorem finds_margin {indent : String} (h : isBlankText indent) (rest : Bytes) :
    finds true (encode indent ++ rest) = finds true rest := by
  have hdots : (encode indent).all fun b => isBlank b || b = byte '.' := by
    apply List.all_eq_true.2
    intro b hb
    obtain ⟨c, hc, hbyte⟩ := List.mem_flatMap.1 hb
    have hblank := List.all_eq_true.1 h c hc
    rw [Bool.or_eq_true, decide_eq_true_eq, decide_eq_true_eq] at hblank
    rcases hblank with rfl | rfl
    · rw [List.mem_singleton.1 hbyte]
      decide
    · rw [List.mem_singleton.1 hbyte]
      decide
  rw [finds_dots hdots, Bool.true_or]

section

variable {inForce : List Namespace} (hnames : ∀ space ∈ inForce, isPrefixName space.name.toList)
include hnames

theorem isVerbWord_iri {iri : String} (h : isIri iri) : IsVerbWord (spellIri inForce iri) := by
  rcases spellIri_cases hnames iri with ⟨name, localPart, hname, hlocal, heq⟩ | heq
  · rw [heq]
    exact isVerbWord_name hname hlocal
  · rw [heq]
    exact isVerbWord_angle h

theorem isVerbWord_predicate (usesKeyword : Bool) {predicate : String} (h : isIri predicate) :
    IsVerbWord (spellPredicate inForce usesKeyword (.iri predicate)) := by
  unfold spellPredicate
  split
  · exact isVerbWord_a
  · exact isVerbWord_iri hnames h

/-- An object that is no IRI in brackets does not start like one. -/
theorem head_object {object : Term} (h : object.isSpellable)
    (hangle : ∀ iri, object = .iri iri → (longest (abbreviations inForce iri)).isNone = false) :
    ∃ d tail, encode (spellTerm inForce object) = d :: tail ∧ isBlank d = false
      ∧ d ≠ byte '<' := by
  cases object with
  | iri iri =>
    have hverb := isVerbWord_iri hnames h
    show ∃ d tail, encode (spellIri inForce iri) = d :: tail ∧ _
    cases hword : encode (spellIri inForce iri) with
    | nil => exact absurd hword hverb.ne_nil
    | cons d tail =>
      refine ⟨d, tail, rfl, hverb.isBlank_eq d (hword ▸ List.mem_cons_self), ?_⟩
      have hshort := hangle iri rfl
      rw [Option.isNone_eq_false_iff, Option.isSome_iff_exists] at hshort
      obtain ⟨⟨space, localPart⟩, hlongest⟩ := hshort
      obtain ⟨hspace, -, hlocal⟩ := of_mem_abbreviations (mem_of_longest hlongest)
      have hname := isVerbWord_name (hnames space hspace) hlocal
      rintro rfl
      -- A bracket in front would be a character of the name.
      have heq : spellIri inForce iri
          = .ofList space.name.toList ++ ":" ++ .ofList localPart := by
        rw [spellIri, hlongest, String.ofList_toList]
      have hmem : '<' ∈ (spellIri inForce iri).toList := by
        apply (byte_mem_encode_iff (by decide)).1
        rw [hword]
        exact List.mem_cons_self
      have hnameChars := List.all_eq_true.1 (all_of_isPrefixName (hnames space hspace))
      have hlocalChars := List.all_eq_true.1 (all_of_isPlainName hlocal)
      simp only [heq, String.toList_append, String.toList_ofList, List.mem_append] at hmem
      rcases hmem with (hmem | hmem) | hmem
      · exact absurd (hnameChars _ hmem) (by decide)
      · exact absurd (List.mem_singleton.1 hmem) (by decide)
      · exact absurd (hlocalChars _ hmem) (by decide)
  | blank label => exact ⟨byte '_', byte ':' :: encode label, by rw [spellTerm, encode_append]; rfl,
      by decide, by decide⟩
  | literal value =>
    have hquoted : ∀ text more : String, ∃ tail, encode (quoted text ++ more) = byte '\x22' :: tail := by
      intro text more
      exact ⟨_, by rw [encode_append, encode_quoted, List.cons_append]⟩
    have hquote : ∃ tail, encode (spellLiteral inForce value) = byte '\x22' :: tail := by
      cases value with
      | simple lexical =>
        rw [spellLiteral, ← String.append_empty (s := quoted lexical)]
        exact hquoted lexical ""
      | tagged lexical language =>
        rw [spellLiteral, String.append_assoc]
        exact hquoted lexical _
      | typed lexical datatype hdatatype =>
        rw [spellLiteral, String.append_assoc]
        exact hquoted lexical _
    obtain ⟨tail, htail⟩ := hquote
    exact ⟨byte '\x22', tail, htail, by decide, by decide⟩

/-- What follows a subject is passed. -/
theorem finds_claim {s : Statement} (hs : s.isSpellable) (usesKeyword : Bool) {m c : UInt8}
    (hm : isMarkByte m) (hc : IsGap c) (rest : Bytes) :
    finds true (encode (spellPredicate inForce usesKeyword s.predicate ++ " "
        ++ spellTerm inForce s.object) ++ byte ' ' :: m :: c :: rest) = finds true rest := by
  obtain ⟨-, -, ⟨p, hp, hiri⟩, hobject⟩ := Statement.of_isSpellable hs
  have hbytes : encode (spellPredicate inForce usesKeyword s.predicate ++ " "
      ++ spellTerm inForce s.object) ++ byte ' ' :: m :: c :: rest
      = encode (spellPredicate inForce usesKeyword s.predicate)
        ++ byte ' ' :: (encode (spellTerm inForce s.object) ++ byte ' ' :: m :: c :: rest) := by
    rw [encode_append, encode_append, List.append_assoc, List.append_assoc]
    rfl
  rw [hbytes, hp, isPassed_predicate hnames usesKeyword hiri true _ _ (.inl rfl),
    finds_term_mark hnames hobject hm hc]

/-- A line that is not mistaken for a directive is passed. -/
theorem finds_line_of_none {s : Statement} (hs : s.isSpellable) {usesKeyword : Bool}
    (hnone : mistaken? inForce usesKeyword s = none) {m c : UInt8} (hm : isMarkByte m)
    (hc : IsGap c) (rest : Bytes) :
    finds true (encode (spellTerm inForce s.subject) ++ byte ' '
        :: (encode (spellPredicate inForce usesKeyword s.predicate ++ " "
          ++ spellTerm inForce s.object) ++ byte ' ' :: m :: c :: rest)) = finds true rest := by
  obtain ⟨-, ⟨-, hsubject⟩, ⟨p, hp, hiri⟩, hobject⟩ := Statement.of_isSpellable hs
  rw [finds_term hnames hsubject (.inl rfl), finds_claim hnames hs usesKeyword hm hc]
  intro label hlabel hends word hword
  have hverb := isVerbWord_predicate hnames usesKeyword hiri
  rw [encode_append, encode_append, List.append_assoc, List.append_assoc, hp]
  apply parts?_eq_none_of_second hword (isBlank_of_isGap (.inl rfl)) (isBlank_of_isGap (.inl rfl))
    hverb.isBlank_eq hverb.ne_nil hverb.angle
  intro hlast
  obtain ⟨name, -, hname⟩ := hverb.colon hlast
  have hlong : ∀ iri, s.object = .iri iri →
      (longest (abbreviations inForce iri)).isNone = false := by
    intro iri hobj
    cases hshort : (longest (abbreviations inForce iri)).isNone with
    | false => rfl
    | true =>
      have hcolon : (String.ofList name ++ ":").toList.getLast? = some ':' := by
        rw [String.toList_append, String.toList_ofList]
        exact List.getLast?_concat
      rw [mistaken?, hlabel, hobj, hp] at hnone
      dsimp only at hnone
      rw [hname, hends, hshort, hcolon, if_pos (by decide)] at hnone
      cases hnone
  obtain ⟨d, tail, hd, hblank, hangle⟩ := head_object hnames hobject hlong
  rw [hd]
  exact ⟨d, _, rfl, hblank, hangle⟩

end

/-! ## Lines that are mistaken -/

/-- The keyword that a label ends with, and the dot before it. -/
theorem exists_keyword_of_endsLikeKeyword {label : String} (h : endsLikeKeyword label) :
    ∃ front key, encode label = front ++ byte '.' :: key ∧ isKeyword key := by
  rw [endsLikeKeyword, decide_eq_true_eq] at h
  have hsplit := List.take_append_drop ((encode label).length - 7) (encode label)
  generalize (encode label).take ((encode label).length - 7) = front at hsplit
  cases hlast : (encode label).drop ((encode label).length - 7) with
  | nil =>
    rw [hlast] at h
    cases h
  | cons b key =>
    rw [hlast, List.map_cons] at h
    have hdot : b = byte '.' := by
      have hlower : ∀ b : UInt8, lowerByte b = byte '.' → b = byte '.' := by
        apply forall_byte
        decide +kernel
      exact hlower b (List.cons.inj h).1
    refine ⟨front, key, ?_, ?_⟩
    · rw [← hsplit, hlast, hdot]
    · rw [isKeyword, Bool.or_eq_true, decide_eq_true_eq, decide_eq_true_eq]
      exact .inr (List.cons.inj h).2

/-- A scan goes on at the keyword that a label ends with. -/
theorem finds_label {label : String} (hlabel : isLabel label.toList) {front key : Bytes}
    (heq : encode label = front ++ byte '.' :: key) (rest : Bytes) :
    finds true (encode ("_:" ++ label) ++ byte ' ' :: rest) = finds true (key ++ byte ' ' :: rest) := by
  have hbytes : encode ("_:" ++ label)
      = (byte '_' :: byte ':' :: front ++ [byte '.']) ++ key := by
    rw [encode_append, heq, List.append_assoc]
    rfl
  have hdotted := List.all_eq_true.1 (all_dotted_label hlabel)
  rw [hbytes] at hdotted
  have hfree : isFree true (key ++ byte ' ' :: rest) (byte '_' :: byte ':' :: front ++ [byte '.']) := by
    apply isFree_of_dots
    · apply List.all_eq_true.2
      intro b hb
      exact hdotted b (List.mem_append_left _ hb)
    · intro _
      exact parts?_eq_none (by decide) (by decide) _
    · intro u v huv hv
      rw [← List.append_assoc]
      apply parts?_eq_none_of_dots
      · intro b hb
        apply hdotted b
        rw [List.mem_append] at hb
        rcases hb with hb | hb
        · apply List.mem_append_left
          rw [huv]
          exact List.mem_append_right _ (List.mem_cons_of_mem _ hb)
        · exact List.mem_append_right _ hb
      · cases hkey : isKeyword (v ++ key) with
        | false => rfl
        | true =>
          -- The dot before the keyword would stand in it.
          have hlast : (byte '_' :: byte ':' :: front ++ [byte '.']).getLast? = some (byte '.') :=
            List.getLast?_concat
          rw [huv, List.getLast?_append, List.getLast?_cons] at hlast
          have hdot : v.getLast? = some (byte '.') := by
            cases hv' : v.getLast? with
            | none => exact absurd (List.getLast?_eq_none_iff.1 hv') hv
            | some b =>
              rw [hv'] at hlast
              exact hlast
          have hmem : byte '.' ∈ v ++ key := List.mem_append_left _ (List.mem_of_getLast? hdot)
          exact absurd rfl (of_mem_keyword hkey hmem).2.2
      · exact head?_gap (.inl rfl) rest
  rw [hbytes, List.append_assoc, finds_word hfree]
  have hstart : mayFollow true (byte '_' :: byte ':' :: front ++ [byte '.']) = true := by
    rw [mayFollow, List.getLast?_concat]
    rfl
  rw [hstart]

theorem all_isNameByte_of_isPrefixName {name : List Char} (h : isPrefixName name) :
    (encode (.ofList name)).all isNameByte := by
  rw [encode_ofList]
  exact all_isNameByte_flatMap (all_of_isPrefixName h)

/-- A directive is found as it is written. -/
theorem spaces_directive {key : Bytes} (hkey : isKeyword key) {name : List Char}
    (hname : isPrefixName name) {iri : String} (hiri : (encode iri).all isIriByte) (after : Bytes) :
    spaces true (key ++ byte ' ' :: (encode (.ofList name ++ ":") ++ byte ' '
        :: (encode ("<" ++ iri ++ ">") ++ byte ' ' :: after)))
      = ⟨.ofList name, iri⟩ :: spaces true after := by
  have hform : IsForm key [byte ' '] (encode (.ofList name)) [byte ' '] (encode iri) :=
    ⟨hkey, List.cons_ne_nil _ _, by decide, all_isNameByte_of_isPrefixName hname, by decide, hiri⟩
  have hfound := congrArg (List.map Prod.fst) (finds_formBytes hform (byte ' ' :: after))
  rw [decodeLossy_encode, decodeLossy_encode, finds_gap (.inl rfl), List.map_cons] at hfound
  refine Eq.trans ?_ hfound
  rw [spaces, formBytes, encode_append, encode_append, encode_append]
  simp only [List.append_assoc]
  rfl

section

variable {inForce : List Namespace} (hnames : ∀ space ∈ inForce, isPrefixName space.name.toList)
include hnames

/-- What a line consists of that is mistaken for a directive. -/
theorem exists_of_mistaken {s : Statement} (hs : s.isSpellable) {usesKeyword : Bool}
    {space : Namespace} (hsome : mistaken? inForce usesKeyword s = some space) :
    ∃ label iri name, s.subject = .blank label ∧ s.object = .iri iri ∧ endsLikeKeyword label
      ∧ isPrefixName name ∧ spellPredicate inForce usesKeyword s.predicate = .ofList name ++ ":"
      ∧ spellTerm inForce s.object = "<" ++ iri ++ ">" ∧ space = ⟨.ofList name, iri⟩ := by
  obtain ⟨-, -, ⟨p, hp, hiri⟩, -⟩ := Statement.of_isSpellable hs
  unfold mistaken? at hsome
  split at hsome
  · next label iri hlabel hobj =>
    dsimp only at hsome
    split at hsome
    · next hlook =>
      cases hsome
      rw [Bool.and_eq_true, Bool.and_eq_true, decide_eq_true_eq, Option.isNone_iff_eq_none] at hlook
      obtain ⟨⟨hends, hlast⟩, hlongest⟩ := hlook
      have hverb := isVerbWord_predicate hnames usesKeyword hiri
      rw [← hp] at hverb
      have hcolon : (encode (spellPredicate inForce usesKeyword s.predicate)).getLast?
          = some (byte ':') := by
        have hwhole := List.dropLast_append_getLast? ':' (by rw [hlast]; rfl)
        have hencode : encode (spellPredicate inForce usesKeyword s.predicate)
            = (spellPredicate inForce usesKeyword s.predicate).toList.dropLast.flatMap encodeChar
              ++ [byte ':'] := by
          rw [encode, ← hwhole, List.flatMap_append, List.dropLast_concat]
          rfl
        rw [hencode, List.getLast?_concat]
      obtain ⟨name, hname, hverbName⟩ := hverb.colon hcolon
      refine ⟨label, iri, name, hlabel, hobj, hends, hname, hverbName, ?_, ?_⟩
      · rw [hobj, spellTerm, spellIri, hlongest]
      · rw [hverbName, String.toList_append, String.toList_ofList]
        congr 2
        exact List.dropLast_concat
    · cases hsome
  · cases hsome

/-- A line is mistaken for a directive that could be one. -/
theorem isSpellable_of_mistaken {s : Statement} (hs : s.isSpellable) {usesKeyword : Bool}
    {space : Namespace} (hsome : mistaken? inForce usesKeyword s = some space) :
    space.isSpellable := by
  obtain ⟨-, -, -, hobject⟩ := Statement.of_isSpellable hs
  obtain ⟨label, iri, name, -, hobj, -, hname, -, -, rfl⟩ := exists_of_mistaken hnames hs hsome
  rw [hobj] at hobject
  have hiri : isIri iri := hobject
  rw [Namespace.isSpellable, String.toList_ofList, hname, hiri]
  rfl

/-- A line that is mistaken for a directive is found as one. -/
theorem spaces_line_of_some {s : Statement} (hs : s.isSpellable) {usesKeyword : Bool}
    {space : Namespace} (hsome : mistaken? inForce usesKeyword s = some space) {m c : UInt8}
    (hm : isMarkByte m) (hc : IsGap c) (rest : Bytes) :
    spaces true (encode (spellTerm inForce s.subject) ++ byte ' '
        :: (encode (spellPredicate inForce usesKeyword s.predicate ++ " "
          ++ spellTerm inForce s.object) ++ byte ' ' :: m :: c :: rest))
      = space :: spaces true rest := by
  obtain ⟨-, ⟨-, hsubject⟩, -, hobject⟩ := Statement.of_isSpellable hs
  obtain ⟨label, iri, name, hlabel, hobj, hends, hname, hverbName, hobjectText, rfl⟩ :=
    exists_of_mistaken hnames hs hsome
  obtain ⟨front, key, hkey, hword⟩ := exists_keyword_of_endsLikeKeyword hends
  rw [hobj] at hobject
  obtain ⟨i, hi⟩ := exists_of_isIri hobject
  have hbytes := all_isIriByte_of_readsAs (readsAs_of_parse hi none)
  have hfound := spaces_directive hword hname hbytes (m :: c :: rest)
  rw [spaces_of_finds (finds_mark hm hc _)] at hfound
  rw [← hfound, hobjectText, hverbName]
  rw [hlabel] at hsubject ⊢
  refine (spaces_of_finds (finds_label hsubject hkey _)).trans ?_
  rw [encode_append (_ ++ _), encode_append _ " ", List.append_assoc, List.append_assoc]
  rfl

end

/-! ## What the writer keeps -/

/-- What was written so far, in front of anything that may follow, holds these directives. -/
structure Finds (w : Writer) (ds : List Namespace) : Prop where
  closed : w.subject = none →
    ∀ rest, spaces true (w.device.contents ++ rest) = ds ++ spaces true rest
  opened : w.subject ≠ none → ∀ m c rest, isMarkByte m → IsGap c →
    spaces true (w.device.contents ++ byte ' ' :: m :: c :: rest) = ds ++ spaces true rest

/-- The graph and the subject that a next statement could be joined to. -/
def Writer.former (w : Writer) : Option (Option Term × Term) :=
  w.graph.bind fun graph => w.subject.map fun subject => (graph, subject)

section

variable {labels : Nat → String} {base : Option Iri} {w w' : Writer} {ss : List Statement}
  {ds : List Namespace}

theorem isPrefixName_of_knows {r : Recognition} {inForce : List Namespace}
    (h : Knows r inForce) : ∀ space ∈ inForce, isPrefixName space.name.toList :=
  fun space hspace => (h space hspace).1

/-- What was read back has names that can stand in directives. -/
theorem IsRead.names (h : IsRead labels base w ss) :
    ∀ space ∈ w.spaces, isPrefixName space.name.toList := by
  rcases h with h | ⟨graph, subject, predicate, h⟩
  · obtain ⟨r, stale, -, hknows, -⟩ := h.read
    exact isPrefixName_of_knows hknows
  · obtain ⟨r, goals, object, head, former, -, hknows, -⟩ := h.read
    exact isPrefixName_of_knows hknows

theorem IsRead.sound (h : IsRead labels base w ss) : IsSound w := by
  rcases h with h | ⟨graph, subject, predicate, h⟩
  · exact h.sound
  · exact h.sound

/-- Text that a scan passes finds nothing more. -/
theorem Finds.append (h : Finds w ds) (hsubject : w.subject = none) {text : String}
    (hsame : w'.device = (w.wrote text).device) {more : List Namespace}
    (htext : ∀ rest, spaces true (encode text ++ rest) = more ++ spaces true rest) (rest : Bytes) :
    spaces true (w'.device.contents ++ rest) = ds ++ more ++ spaces true rest := by
  rw [hsame, Writer.contents_wrote, List.append_assoc, h.closed hsubject, htext, List.append_assoc]

theorem Finds.append_open (h : Finds w ds) (hsubject : w.subject ≠ none) {m c : UInt8}
    (hm : isMarkByte m) (hc : IsGap c) {text : Bytes} (rest : Bytes) :
    spaces true (w.device.contents ++ (byte ' ' :: m :: c :: text) ++ rest)
      = ds ++ spaces true (text ++ rest) := by
  rw [List.append_assoc]
  exact h.opened hsubject m c (text ++ rest) hm hc

/-- The end of a graph is passed. -/
theorem finds_closing (graph : Option Term) (rest : Bytes) :
    finds true (encode (Writer.closing graph) ++ rest) = finds true rest := by
  cases graph with
  | none => rfl
  | some name =>
    have htext : encode (Writer.closing (some name)) ++ rest = byte '\x7d' :: byte '\n' :: rest := by
      rw [Writer.closing]
      rfl
    have hstart : mayPrecede (some (byte '\x7d')) = true := by decide
    rw [htext, finds_byte (by decide) (fun _ => parts?_eq_none (by decide) (by decide) _), hstart,
      finds_gap (.inr rfl)]

/-- Ending what is open keeps what is found. -/
theorem Finds.closeGraph (h : Finds w ds) (hread : IsRead labels base w ss)
    (hclose : Writer.closeGraph w = .ok () w') :
    Finds w' ds ∧ w'.spaces = w.spaces ∧ w'.layout = w.layout := by
  rcases hread with hread | ⟨graph, subject, predicate, hread⟩
  · rw [Writer.closeGraph_of_none hread.graph_eq hread.subject_eq hread.predicate_eq] at hclose
    cases hclose
    exact ⟨h, rfl, rfl⟩
  · rw [Writer.closeGraph_of_open hread.sound.room hread.graph_eq hread.subject_eq] at hclose
    cases hclose
    have hsubject : w.subject ≠ none := by
      rw [hread.subject_eq]
      exact Option.some_ne_none _
    refine ⟨⟨?_, fun hopen => absurd rfl hopen⟩, rfl, rfl⟩
    intro _ rest
    show spaces true (((w.wrote " .\n").wrote (Writer.closing graph)).device.contents ++ rest) = _
    rw [Writer.contents_wrote, Writer.contents_wrote, List.append_assoc]
    have hdot := @Finds.append_open w ds h hsubject (byte '.') (byte '\n') (by decide) (.inr rfl) []
      (encode (Writer.closing graph) ++ rest)
    rw [List.nil_append, spaces_of_finds (finds_closing _ _)] at hdot
    exact hdot

/-- A directive is found. -/
theorem spaces_written {space : Namespace} (hspace : IsReadable base space) (rest : Bytes) :
    spaces true (encode (Writer.directive space) ++ rest) = space :: spaces true rest := by
  obtain ⟨hname, i, hiri⟩ := hspace
  have hkey : isKeyword (encode "@prefix") := by decide +kernel
  have hfound := spaces_directive hkey hname (all_isIriByte_of_readsAs hiri)
    (byte '.' :: byte '\n' :: rest)
  rw [spaces_of_finds (finds_mark (by decide) (.inr rfl) rest), String.ofList_toList] at hfound
  rw [← hfound, Writer.directive]
  simp only [encode_append, List.append_assoc]
  rfl

theorem Finds.declare (h : Finds w ds) (hread : IsRead labels base w ss) {space : Namespace}
    (hspace : IsReadable base space) (hdeclare : Writer.declare space w = .ok () w') :
    Finds w' (ds ++ [space]) ∧ w'.spaces = bind space w.spaces ∧ w'.layout = w.layout
      ∧ w'.former = none := by
  obtain ⟨w₀, hclose, hclosed⟩ := hread.closeGraph
  obtain ⟨hfinds, hspaces, hlayout⟩ := h.closeGraph hread hclose
  have hgap : ∀ gap : String, (∀ rest, finds true (encode gap ++ rest) = finds true rest) →
      Finds (w₀.declared space (gap ++ Writer.directive space)) (ds ++ [space]) := by
    intro gap hgap
    refine ⟨?_, fun hopen => absurd hclosed.subject_eq hopen⟩
    intro _
    refine hfinds.append hclosed.subject_eq rfl ?_
    intro rest
    rw [encode_append, List.append_assoc, spaces_of_finds (hgap _), spaces_written hspace]
    rfl
  have hformer : ∀ text, (w₀.declared space text).former = none := by
    intro text
    show w₀.graph.bind _ = none
    rw [hclosed.graph_eq]
    rfl
  rcases hread with hread | ⟨graph, subject, predicate, hread⟩
  · rw [Writer.closeGraph_of_none hread.graph_eq hread.subject_eq hread.predicate_eq] at hclose
    cases hclose
    rw [Writer.declare_of_none hread.sound.room hread.graph_eq] at hdeclare
    cases hdeclare
    have hfound := hgap "" fun _ => rfl
    rw [String.empty_append] at hfound
    exact ⟨hfound, rfl, rfl, hformer _⟩
  · rw [Writer.declare_of_graph hread.graph_eq hclose hclosed.sound.room] at hdeclare
    cases hdeclare
    refine ⟨hgap "\n" fun rest => finds_gap (.inr rfl) true rest, ?_, hlayout, hformer _⟩
    show bind space w₀.spaces = _
    rw [hspaces]

/-! ## Statements -/

/-- The directive that a scan finds where a statement is written behind another. -/
def misread (w : Writer) (s : Statement) : List Namespace :=
  if w.former = some (s.graph, s.subject) then []
  else (mistaken? w.spaces w.layout.usesKeyword s).toList

/-- The line of a statement holds at most the directive that it is mistaken for. -/
theorem spaces_line (hnames : ∀ space ∈ w.spaces, isPrefixName space.name.toList)
    (hblank : isBlankText w.layout.indent) {s : Statement} (hs : s.isSpellable) {m c : UInt8}
    (hm : isMarkByte m) (hc : IsGap c) (rest : Bytes) :
    spaces true (encode (w.line s) ++ byte ' ' :: m :: c :: rest)
      = (mistaken? w.spaces w.layout.usesKeyword s).toList ++ spaces true rest := by
  have hmargin : ∀ rest, finds true (encode (w.margin s) ++ rest) = finds true rest := by
    intro rest
    unfold Writer.margin
    split
    · exact finds_margin hblank rest
    · rfl
  have hbytes : encode (w.line s) ++ byte ' ' :: m :: c :: rest
      = encode (w.margin s) ++ (encode (spellTerm w.spaces s.subject) ++ byte ' '
        :: (encode (spellPredicate w.spaces w.layout.usesKeyword s.predicate ++ " "
          ++ spellTerm w.spaces s.object) ++ byte ' ' :: m :: c :: rest)) := by
    rw [Writer.line, Writer.claim]
    simp only [encode_append, List.append_assoc]
    rfl
  rw [hbytes, spaces_of_finds (hmargin _)]
  cases hmistaken : mistaken? w.spaces w.layout.usesKeyword s with
  | none => exact spaces_of_finds (finds_line_of_none hnames hs hmistaken hm hc rest)
  | some space => exact spaces_line_of_some hnames hs hmistaken hm hc rest

/-- What opens a graph is passed. -/
theorem finds_opening (hnames : ∀ space ∈ w.spaces, isPrefixName space.name.toList)
    {graph : Option Term} (hgraph : ∀ name ∈ graph, name.isResource ∧ name.isSpellable)
    (rest : Bytes) : finds true (encode (w.opening graph) ++ rest) = finds true rest := by
  have hgap : ∀ rest, finds true (encode (if w.hasWritten then "\n" else "") ++ rest)
      = finds true rest := by
    intro rest
    split
    · exact finds_gap (.inr rfl) true rest
    · rfl
  rw [Writer.opening, encode_append, List.append_assoc, hgap]
  cases graph with
  | none => rfl
  | some name =>
    have hbytes : encode ((some name).elim "" fun name => spellTerm w.spaces name ++ " \x7b\n") ++ rest
        = encode (spellTerm w.spaces name) ++ byte ' ' :: byte '\x7b' :: byte '\n' :: rest := by
      rw [Option.elim_some, encode_append, List.append_assoc]
      rfl
    rw [hbytes, finds_term_mark hnames (hgraph name rfl).2 (by decide) (.inr rfl)]

/-- What is joined to an open statement is passed. -/
theorem Finds.joined (h : Finds w ds) (hsubject : w.subject ≠ none) {s : Statement} {m c : UInt8}
    (hm : isMarkByte m) (hc : IsGap c) {text : String} (more : Bytes)
    (htext : encode text = byte ' ' :: m :: c :: more) {found : List Namespace}
    (hmore : ∀ m c rest, isMarkByte m → IsGap c →
      spaces true (more ++ byte ' ' :: m :: c :: rest) = found ++ spaces true rest) :
    Finds (w.joined s text) (ds ++ found) := by
  refine ⟨fun hclosed => absurd hclosed (Option.some_ne_none _), ?_⟩
  intro _ m' c' rest hm' hc'
  show spaces true ((w.wrote text).device.contents ++ _) = _
  rw [Writer.contents_wrote, htext, h.append_open hsubject hm hc, hmore m' c' rest hm' hc',
    List.append_assoc]

/-- A statement of the open graph. -/
theorem Finds.addToGraph (h : Finds w ds) (hsound : IsSound w)
    (hnames : ∀ space ∈ w.spaces, isPrefixName space.name.toList) {s : Statement}
    (hs : s.isSpellable) (hgraph : w.graph = some s.graph)
    (hadd : Writer.addToGraph s w = .ok () w') :
    Finds w' (ds ++ misread w s) ∧ w'.spaces = w.spaces ∧ w'.layout = w.layout
      ∧ w'.former = some (s.graph, s.subject) := by
  obtain ⟨-, -, -, hobject⟩ := Statement.of_isSpellable hs
  have hformer : ∀ text, (w.joined s text).former = some (s.graph, s.subject) := by
    intro text
    show w.graph.bind _ = _
    rw [hgraph]
    rfl
  have hmargin : ∀ rest, finds true (encode (w.margin s) ++ rest) = finds true rest := by
    intro rest
    unfold Writer.margin
    split
    · exact finds_margin hsound.blank rest
    · rfl
  cases hsubject : w.subject with
  | none =>
    -- The first statement of a graph is a line of its own, which may be mistaken.
    rw [Writer.addToGraph_first hsound.room hsubject] at hadd
    cases hadd
    refine ⟨⟨fun hclosed => absurd hclosed (Option.some_ne_none _), ?_⟩, rfl, rfl, hformer _⟩
    intro _ m c rest hm hc
    have hmisread : misread w s = (mistaken? w.spaces w.layout.usesKeyword s).toList := by
      rw [misread, Writer.former, hgraph, hsubject]
      rfl
    show spaces true ((w.wrote (w.line s)).device.contents ++ _) = _
    rw [Writer.contents_wrote, List.append_assoc, h.closed hsubject,
      spaces_line hnames hsound.blank hs hm hc, hmisread, List.append_assoc]
  | some subject =>
    have hopen : w.subject ≠ none := by
      rw [hsubject]
      exact Option.some_ne_none _
    by_cases hsame : subject = s.subject
    · -- What is joined to the statement before is never mistaken, as its label is not repeated.
      have hmisread : misread w s = [] := by
        rw [misread, Writer.former, hgraph, hsubject, hsame]
        exact if_pos rfl
      rw [hmisread]
      rw [hsame] at hsubject
      by_cases hpredicate : w.predicate = some s.predicate
      · rw [Writer.addToGraph_comma hsound.room hsubject hpredicate] at hadd
        cases hadd
        refine ⟨?_, rfl, rfl, hformer _⟩
        refine h.joined hopen (m := byte ',') (c := byte ' ') (by decide) (.inl rfl)
          (encode (spellTerm w.spaces s.object)) ?_ ?_
        · rw [encode_append]
          rfl
        · intro m c rest hm hc
          exact spaces_of_finds (finds_term_mark hnames hobject hm hc true rest)
      · rw [Writer.addToGraph_semicolon hsound.room hsubject hpredicate] at hadd
        cases hadd
        refine ⟨?_, rfl, rfl, hformer _⟩
        refine h.joined hopen (m := byte ';') (c := byte '\n') (by decide) (.inr rfl)
          (encode (w.margin s) ++ (encode w.layout.indent ++ encode (w.claim s))) ?_ ?_
        · simp only [encode_append, List.append_assoc]
          rfl
        · intro m c rest hm hc
          rw [List.append_assoc, List.append_assoc]
          apply spaces_of_finds
          rw [hmargin, finds_margin hsound.blank]
          exact finds_claim hnames hs w.layout.usesKeyword hm hc rest
    · rw [Writer.addToGraph_next hsound.room hsubject hsame] at hadd
      cases hadd
      refine ⟨?_, rfl, rfl, hformer _⟩
      have hmisread : misread w s = (mistaken? w.spaces w.layout.usesKeyword s).toList := by
        rw [misread, Writer.former, hgraph, hsubject]
        refine if_neg ?_
        intro heq
        exact hsame (Prod.mk.inj (Option.some.inj heq)).2
      rw [hmisread]
      refine h.joined hopen (m := byte '.') (c := byte '\n') (by decide) (.inr rfl)
        (byte '\n' :: encode (w.line s)) ?_ ?_
      · rw [encode_append]
        rfl
      · intro m c rest hm hc
        rw [List.cons_append, spaces_of_finds (finds_gap (.inr rfl) true _),
          spaces_line hnames hsound.blank hs hm hc]

/-- A statement finds what its line is mistaken for. -/
theorem Finds.add (h : Finds w ds) (hread : IsRead labels base w ss) {s : Statement}
    (hs : s.isSpellable) (hadd : Writer.add s w = .ok () w') :
    Finds w' (ds ++ misread w s) ∧ w'.spaces = w.spaces ∧ w'.layout = w.layout
      ∧ w'.former = some (s.graph, s.subject) := by
  have hfit := Statement.misfit?_of_isSpellable hs
  by_cases hgraph : w.graph = some s.graph
  · rw [Writer.add_sameGraph hfit hgraph] at hadd
    exact h.addToGraph hread.sound hread.names hs hgraph hadd
  · obtain ⟨w₀, hclose, hclosed⟩ := hread.closeGraph
    obtain ⟨hfinds, hspaces, hlayout⟩ := h.closeGraph hread hclose
    have hopen := Writer.openGraph_ok hclose hclosed.sound.room s.graph
    rw [Writer.add_otherGraph hfit hgraph hopen] at hadd
    generalize hw₁ : ({ w₀.wrote (w₀.opening s.graph) with
      graph := some s.graph, hasWritten := true } : Writer) = w₁ at hadd
    have hnames₀ : ∀ space ∈ w₀.spaces, isPrefixName space.name.toList := by
      rw [hspaces]
      exact hread.names
    have hsubject₁ : w₁.subject = none := by
      rw [← hw₁]
      exact hclosed.subject_eq
    have hspaces₁ : w₁.spaces = w.spaces ∧ w₁.layout = w.layout ∧ w₁.graph = some s.graph := by
      rw [← hw₁]
      exact ⟨hspaces, hlayout, rfl⟩
    have hsound₁ : IsSound w₁ := by
      rw [← hw₁]
      exact hclosed.sound.wrote _ rfl rfl hclosed.sound.distinct
    have hfinds₁ : Finds w₁ ds := by
      refine ⟨?_, fun hopen => absurd hsubject₁ hopen⟩
      intro _ rest
      have hdevice : w₁.device = (w₀.wrote (w₀.opening s.graph)).device := by rw [← hw₁]
      have hpassed : spaces true (w₁.device.contents ++ rest) = ds ++ [] ++ spaces true rest :=
        hfinds.append hclosed.subject_eq hdevice (fun rest => spaces_of_finds
          (finds_opening hnames₀ (Statement.of_isSpellable hs).1 rest)) rest
      rw [List.append_nil] at hpassed
      exact hpassed
    obtain ⟨hfound, hspaces', hlayout', hformer⟩ := hfinds₁.addToGraph hsound₁
      (hspaces₁.1 ▸ hread.names) hs hspaces₁.2.2 hadd
    have hmisread : misread w₁ s = misread w s := by
      have hother : w.former ≠ some (s.graph, s.subject) := by
        intro heq
        obtain ⟨graph, hg, hpair⟩ := Option.bind_eq_some_iff.1 heq
        obtain ⟨subject, -, hpair⟩ := Option.map_eq_some_iff.1 hpair
        exact hgraph (hg.trans (congrArg some (Prod.mk.inj hpair).1))
      have hfirst : w₁.former ≠ some (s.graph, s.subject) := by
        rw [Writer.former, hsubject₁, hspaces₁.2.2]
        exact (Option.some_ne_none _).symm
      rw [misread, if_neg hfirst, misread, if_neg hother, hspaces₁.1, hspaces₁.2.1]
    rw [hmisread] at hfound
    exact ⟨hfound, hspaces'.trans hspaces₁.1, hlayout'.trans hspaces₁.2.1, hformer⟩

end

/-! ## Whole documents -/

/-- All that a scan finds in what is written from some entries: the declarations, and the lines that
are mistaken for one. `former` is the graph and the subject of the statement before. -/
def found (usesKeyword : Bool) (inForce : List Namespace) (former : Option (Option Term × Term)) :
    List Entry → List Namespace
  | [] => []
  | .declaration space :: rest => space :: found usesKeyword (bind space inForce) none rest
  | .statement s :: rest =>
    (if former = some (s.graph, s.subject) then [] else (mistaken? inForce usesKeyword s).toList)
      ++ found usesKeyword inForce (some (s.graph, s.subject)) rest

section

variable {labels : Nat → String} {base : Option Iri} {w w' : Writer} {ss : List Statement}
  {ds : List Namespace}

theorem Finds.writeAll (h : Finds w ds) (hread : IsRead labels base w ss) {entries : List Entry}
    (hentries : ∀ entry ∈ entries, entry.IsReadable base)
    (hall : Entry.writeAll entries w = .ok () w') :
    spaces true w'.device.contents = ds ++ found w.layout.usesKeyword w.spaces w.former entries := by
  induction entries generalizing w ss ds with
  | nil =>
    obtain ⟨w₀, hclose, hclosed⟩ := hread.closeGraph
    rw [Entry.writeAll, Writer.finish_ok hclose hclosed.sound.flushes] at hall
    cases hall
    have hfinds := (h.closeGraph hread hclose).1.closed hclosed.subject_eq []
    rw [List.append_nil, spaces, spaces, finds_nil] at hfinds
    exact hfinds
  | cons entry entries ih =>
    obtain ⟨w₁, hwrite, hread₁⟩ := hread.write (hentries entry List.mem_cons_self)
    rw [Entry.writeAll, Writer.bind_ok hwrite] at hall
    have hrest : ∀ e ∈ entries, _ := fun e he => hentries e (List.mem_cons_of_mem _ he)
    cases entry with
    | declaration space =>
      obtain ⟨hfinds, hspaces, hlayout, hformer⟩ :=
        h.declare hread (hentries _ List.mem_cons_self) hwrite
      rw [ih hfinds hread₁ hrest hall, hspaces, hlayout, hformer, found, List.append_assoc]
      rfl
    | statement s =>
      obtain ⟨hfinds, hspaces, hlayout, hformer⟩ :=
        h.add hread (hentries _ List.mem_cons_self) hwrite
      rw [ih hfinds hread₁ hrest hall, hspaces, hlayout, hformer, found, misread, List.append_assoc]

/-- A scan of a written document finds its declarations and the lines that are mistaken for one. -/
theorem spaces_writeAll {layout : Layout} (hindent : isBlankText layout.indent)
    {entries : List Entry}
    (hentries : ∀ entry ∈ entries, entry.IsReadable base)
    (hall : Entry.writeAll entries (.start .unlimited layout) = .ok () w') :
    (Directive.scan w'.device.contents).map space = found layout.usesKeyword [] none entries := by
  have hread : IsRead (fun _ => "") base (.start .unlimited layout) [] :=
    .inl (isClosed_start hindent)
  have hstart : Finds (.start .unlimited layout) [] := ⟨fun _ _ => rfl, fun hopen => absurd rfl hopen⟩
  have hfound := hstart.writeAll hread hentries hall
  rw [map_space_scan]
  exact hfound

end

end TidyTrig.Trig
