import TidyTrig.Iri.Resolve
import TidyTrig.Proofs.Basic

/-!
# What reading an IRI says of its text

An IRI that was read writes the text that it was read from (`chars_of_ofChars`), and that text holds
none of the characters that delimit IRIs in a document (`isIriChar_of_ofChars`). Both follow
component by component from `Takes`: a reader takes some characters in front, all of which may
stand in an IRI, and leaves the rest as it is.
-/

namespace TidyTrig.Iri

/-- Whether a character may stand in an IRI at all. -/
def isIriChar (c : Char) : Bool := isQueryChar c || c ∈ ['%', '#', '[', ']']

/-- What was taken from the front of a text, and the rest. -/
def Takes (cs taken rest : List Char) : Prop := cs = taken ++ rest ∧ taken.all isIriChar

/-! ## Characters -/

theorem isIriChar_of_isQueryChar {c : Char} (h : isQueryChar c) : isIriChar c := by
  simp [isIriChar, h]

theorem isIriChar_of_isFragmentChar {c : Char} (h : isFragmentChar c) : isIriChar c := by
  simp [isIriChar, isQueryChar, h]

theorem isIriChar_of_isPathChar {c : Char} (h : isPathChar c) : isIriChar c := by
  apply isIriChar_of_isFragmentChar
  simp [isFragmentChar, h]

theorem isIriChar_of_isSegmentChar {c : Char} (h : isSegmentChar c) : isIriChar c := by
  apply isIriChar_of_isPathChar
  simp [isPathChar, h]

theorem isIriChar_of_isHostChar {c : Char} (h : isHostChar c) : isIriChar c := by
  apply isIriChar_of_isSegmentChar
  simp [isSegmentChar, h]

theorem isIriChar_of_isUserChar {c : Char} (h : isUserChar c) : isIriChar c := by
  apply isIriChar_of_isSegmentChar
  simp only [isUserChar, isSegmentChar, Bool.or_eq_true, decide_eq_true_eq] at h ⊢
  exact .inl h

theorem isIriChar_of_isFirstSegmentChar {c : Char} (h : isFirstSegmentChar c) : isIriChar c := by
  apply isIriChar_of_isSegmentChar
  simp only [isFirstSegmentChar, isSegmentChar, Bool.or_eq_true, decide_eq_true_eq] at h ⊢
  rcases h with h | h
  · exact .inl (.inl h)
  · exact .inr h

theorem isIriChar_of_isPlain {c : Char} (h : isPlain c) : isIriChar c := by
  apply isIriChar_of_isHostChar
  simp [isHostChar, h]

theorem isIriChar_of_isAlphanum {c : Char} (h : c.isAlphanum) : isIriChar c := by
  apply isIriChar_of_isPlain
  simp [isPlain, h]

theorem isIriChar_of_isDigit {c : Char} (h : c.isDigit) : isIriChar c := by
  apply isIriChar_of_isAlphanum
  simp [Char.isAlphanum, h]

theorem isIriChar_of_isSchemeChar {c : Char} (h : isSchemeChar c) : isIriChar c := by
  simp only [isSchemeChar, Bool.or_eq_true, decide_eq_true_eq] at h
  rcases h with ((h | rfl) | rfl) | rfl
  · exact isIriChar_of_isAlphanum h
  · decide
  · decide
  · decide

theorem isAlphanum_of_isHexDigit {c : Char} (h : Hex.isDigit c) : c.isAlphanum := by
  have hrange : ('0' ≤ c ∧ c ≤ '9') ∨ ('a' ≤ c ∧ c ≤ 'f') ∨ ('A' ≤ c ∧ c ≤ 'F') := by
    unfold Hex.isDigit Hex.digit? at h
    repeat' split at h
    all_goals simp_all
  simp only [Char.le_def, UInt32.le_iff_toNat_le] at hrange
  change (48 ≤ c.toNat ∧ c.toNat ≤ 57) ∨ (97 ≤ c.toNat ∧ c.toNat ≤ 102)
    ∨ (65 ≤ c.toNat ∧ c.toNat ≤ 70) at hrange
  rw [isAlphanum_iff]
  omega

theorem isIriChar_of_isHexDigit {c : Char} (h : Hex.isDigit c) : isIriChar c :=
  isIriChar_of_isAlphanum (isAlphanum_of_isHexDigit h)


/-! ## Readers -/

theorem takes_nil (cs : List Char) : Takes cs [] cs := ⟨rfl, rfl⟩

theorem Takes.cons {cs taken rest : List Char} {c : Char} (h : Takes cs taken rest)
    (hc : isIriChar c) : Takes (c :: cs) (c :: taken) rest := by
  refine ⟨by rw [h.1, List.cons_append], ?_⟩
  rw [List.all_cons, hc, h.2, Bool.and_self]

theorem Takes.append {cs taken mid taken' rest : List Char} (h : Takes cs taken mid)
    (h' : Takes mid taken' rest) : Takes cs (taken ++ taken') rest := by
  refine ⟨by rw [h.1, h'.1, List.append_assoc], ?_⟩
  rw [List.all_append, h.2, h'.2, Bool.and_self]

/-- A reader's success comes from the success of what it goes on with. -/
theorem exists_of_map_eq_ok {ε α β : Type} {x : Except ε α} {f : α → β} {b : β}
    (h : x.map f = .ok b) : ∃ a, x = .ok a ∧ f a = b := by
  cases x with
  | error e => cases h
  | ok a =>
    cases h
    exact ⟨a, rfl, rfl⟩

theorem exists_of_bind_eq_ok {ε α β : Type} {x : Except ε α} {f : α → Except ε β} {b : β}
    (h : x >>= f = .ok b) : ∃ a, x = .ok a ∧ f a = .ok b := by
  cases x with
  | error e => cases h
  | ok a => exact ⟨a, rfl, h⟩

theorem takes_of_readUntil {ends allowed : Char → Bool}
    (hallowed : ∀ c, allowed c → isIriChar c) {cs taken rest : List Char}
    (h : readUntil ends allowed cs = .ok (taken, rest)) :
    Takes cs taken rest ∧ ∀ c ∈ rest.head?, ends c := by
  fun_induction readUntil ends allowed cs generalizing taken rest with
  | case1 =>
    cases h
    exact ⟨takes_nil _, nofun⟩
  | case2 c cs hends =>
    cases h
    refine ⟨takes_nil _, ?_⟩
    intro d hd
    cases hd
    exact hends
  | case3 c cs hends hc ih =>
    obtain ⟨⟨taken', rest'⟩, hread, heq⟩ := exists_of_map_eq_ok h
    cases heq
    obtain ⟨htakes, hhead⟩ := ih hread
    exact ⟨htakes.cons (hallowed _ hc), hhead⟩
  | case4 h' l cs hdigits hends hc ih =>
    rw [Bool.and_eq_true] at hdigits
    obtain ⟨⟨taken', rest'⟩, hread, heq⟩ := exists_of_map_eq_ok h
    cases heq
    obtain ⟨htakes, hhead⟩ := ih hread
    have hl := htakes.cons (isIriChar_of_isHexDigit hdigits.2)
    exact ⟨(hl.cons (isIriChar_of_isHexDigit hdigits.1)).cons (by decide), hhead⟩
  | case5 => cases h
  | case6 => cases h
  | case7 => cases h

/-! ## Addresses -/

theorem takes_takeWhile {p : Char → Bool} (hp : ∀ c, p c → isIriChar c) (cs : List Char) :
    Takes cs (cs.takeWhile p) (cs.dropWhile p) := by
  refine ⟨List.takeWhile_append_dropWhile.symm, ?_⟩
  rw [List.all_eq_true]
  intro c hc
  exact hp c (List.all_eq_true.1 List.all_takeWhile c hc)

theorem exists_takes_of_afterGroup? {cs rest : List Char} (h : afterGroup? cs = some rest) :
    ∃ taken, Takes cs taken rest := by
  unfold afterGroup? at h
  dsimp only at h
  split at h
  · cases h
    exact ⟨_, takes_takeWhile (fun _ => isIriChar_of_isHexDigit) cs⟩
  · cases h

theorem exists_takes_of_afterOctet? {cs rest : List Char} (h : afterOctet? cs = some rest) :
    ∃ taken, Takes cs taken rest := by
  unfold afterOctet? at h
  dsimp only at h
  split at h
  · cases h
    exact ⟨_, takes_takeWhile (fun _ => isIriChar_of_isDigit) cs⟩
  · cases h

theorem exists_takes_of_afterSeparator {separator : Char} (hseparator : isIriChar separator)
    {isFirst : Bool} {cs rest : List Char} (h : afterSeparator separator isFirst cs = some rest) :
    ∃ taken, Takes cs taken rest := by
  unfold afterSeparator at h
  split at h
  · cases h
    exact ⟨[], takes_nil _⟩
  · split at h
    · next c cs =>
      split at h
      · next hc =>
        cases h
        rw [hc]
        exact ⟨[separator], (takes_nil _).cons hseparator⟩
      · cases h
    · cases h

/-- Readers that only take characters of IRIs do so in sequence. -/
theorem exists_takes_trans {cs mid rest : List Char} (h : ∃ taken, Takes cs taken mid)
    (h' : ∃ taken, Takes mid taken rest) : ∃ taken, Takes cs taken rest := by
  obtain ⟨taken, h⟩ := h
  obtain ⟨taken', h'⟩ := h'
  exact ⟨taken ++ taken', h.append h'⟩

theorem exists_takes_of_afterV4Address? {cs rest : List Char}
    (h : afterV4Address? cs = some rest) : ∃ taken, Takes cs taken rest := by
  have hdot : isIriChar '.' := by decide
  simp only [afterV4Address?, Option.bind_eq_bind, Option.bind_eq_some_iff] at h
  obtain ⟨c₁, h₁, d₁, hd₁, c₂, h₂, d₂, hd₂, c₃, h₃, d₃, hd₃, h₄⟩ := h
  refine exists_takes_trans (exists_takes_of_afterOctet? h₁) ?_
  refine exists_takes_trans (exists_takes_of_afterSeparator hdot hd₁) ?_
  refine exists_takes_trans (exists_takes_of_afterOctet? h₂) ?_
  refine exists_takes_trans (exists_takes_of_afterSeparator hdot hd₂) ?_
  refine exists_takes_trans (exists_takes_of_afterOctet? h₃) ?_
  refine exists_takes_trans (exists_takes_of_afterSeparator hdot hd₃) ?_
  exact exists_takes_of_afterOctet? h₄

theorem exists_takes_groups (isFirst : Bool) (room : Nat) (cs : List Char) :
    ∃ taken, Takes cs taken (groups isFirst room cs).2.2 := by
  have hcolon : isIriChar ':' := by decide
  induction room generalizing isFirst cs with
  | zero => exact ⟨[], takes_nil _⟩
  | succ room ih =>
    rw [groups]
    dsimp only
    split
    · next rest hembedded =>
      split at hembedded
      · obtain ⟨after, hafter, hv4⟩ := Option.bind_eq_some_iff.1 hembedded
        exact exists_takes_trans (exists_takes_of_afterSeparator hcolon hafter)
          (exists_takes_of_afterV4Address? hv4)
      · cases hembedded
    · split
      · next rest hgroup =>
        obtain ⟨after, hafter, hgroup⟩ := Option.bind_eq_some_iff.1 hgroup
        refine exists_takes_trans (exists_takes_of_afterSeparator hcolon hafter) ?_
        exact exists_takes_trans (exists_takes_of_afterGroup? hgroup) (ih false rest)
      · exact ⟨[], takes_nil _⟩

theorem all_of_exists_takes_nil {cs : List Char} (h : ∃ taken, Takes cs taken []) :
    cs.all isIriChar := by
  obtain ⟨taken, heq, hall⟩ := h
  rw [heq, List.append_nil]
  exact hall

theorem all_isIriChar_of_isV6Address {cs : List Char} (h : isV6Address cs) : cs.all isIriChar := by
  have htakes := exists_takes_groups true 8 cs
  unfold isV6Address at h
  generalize groups true 8 cs = first at h htakes
  obtain ⟨count, hasV4, rest⟩ := first
  dsimp only at h htakes
  apply all_of_exists_takes_nil
  split at h
  · rw [List.isEmpty_iff.1 h] at htakes
    exact htakes
  · split at h
    · cases h
    · split at h
      · next _ _ rest' =>
        have hlast := exists_takes_groups true (7 - count) rest'
        rw [List.isEmpty_iff.1 h] at hlast
        obtain ⟨last, hlast⟩ := hlast
        have hcolons : Takes (':' :: ':' :: rest') (':' :: ':' :: last) [] :=
          (hlast.cons (by decide)).cons (by decide)
        exact exists_takes_trans htakes ⟨_, hcolons⟩
      · cases h

/-- An address of a future version has a letter, the digits of the version and a dot in front. -/
theorem all_isIriChar_of_checkFutureAddress {c : Char} {rest : List Char} (hc : c = 'v' ∨ c = 'V')
    (h : checkFutureAddress (c :: rest) = .ok ()) : (c :: rest).all isIriChar := by
  unfold checkFutureAddress at h
  rw [List.drop_succ_cons, List.drop_zero] at h
  dsimp only at h
  have hdigits := takes_takeWhile (fun _ => isIriChar_of_isHexDigit) rest
  have hv : isIriChar c := by
    rcases hc with rfl | rfl
    · decide
    · decide
  split at h
  · next address hafter =>
    rw [hafter] at hdigits
    split at h
    · cases h
    · split at h
      · cases h
      · split at h
        · cases h
        · next hnone =>
          have haddress : address.all isIriChar := by
            rw [List.all_eq_true]
            intro d hd
            have hplain := List.find?_eq_none.1 hnone d hd
            simp only [Bool.not_eq_true', Bool.not_eq_false, Bool.or_eq_true,
              decide_eq_true_eq] at hplain
            rcases hplain with hplain | rfl
            · exact isIriChar_of_isPlain hplain
            · decide
          rw [List.all_cons, hv, hdigits.1, List.all_append, hdigits.2, List.all_cons, haddress]
          decide
  · cases h
  · cases h

theorem all_isIriChar_of_checkAddress {content : List Char} (h : checkAddress content = .ok ()) :
    content.all isIriChar := by
  unfold checkAddress at h
  split at h
  · next hhead =>
    obtain ⟨rest, rfl⟩ := List.head?_eq_some_iff.1 hhead
    exact all_isIriChar_of_checkFutureAddress (.inl rfl) h
  · next hhead =>
    obtain ⟨rest, rfl⟩ := List.head?_eq_some_iff.1 hhead
    exact all_isIriChar_of_checkFutureAddress (.inr rfl) h
  · split at h
    · next hv6 => exact all_isIriChar_of_isV6Address hv6
    · cases h

/-! ## The authority -/

theorem takes_of_readPort {cs taken rest : List Char} (h : readPort cs = .ok (taken, rest)) :
    Takes cs taken rest := by
  fun_induction readPort cs generalizing taken rest with
  | case1 =>
    cases h
    exact takes_nil _
  | case2 =>
    cases h
    exact takes_nil _
  | case3 c cs hends hdigit ih =>
    obtain ⟨⟨taken', rest'⟩, hread, heq⟩ := exists_of_map_eq_ok h
    cases heq
    exact (ih hread).cons (isIriChar_of_isDigit hdigit)
  | case4 => cases h

/-- What follows a host goes on with it. -/
theorem takes_of_readPort? {cs host mid taken rest : List Char} (hhost : Takes cs host mid)
    (h : readPort? host mid = .ok (taken, rest)) : Takes cs taken rest := by
  unfold readPort? at h
  split at h
  · obtain ⟨⟨port, rest'⟩, hport, heq⟩ := exists_of_map_eq_ok h
    cases heq
    exact hhost.append ((takes_of_readPort hport).cons (by decide))
  · cases h
    exact hhost

theorem takes_of_readBracketed {cs taken rest : List Char}
    (h : readBracketed cs = .ok (taken, rest)) : Takes ('[' :: cs) taken rest := by
  unfold readBracketed at h
  dsimp only at h
  split at h
  · cases h
  · next close after hafter =>
    obtain ⟨⟨⟩, hcheck, h⟩ := exists_of_bind_eq_ok h
    have hclose : close = ']' := by
      have hstop := List.head?_dropWhile_not (fun c => decide (c ≠ ']')) cs
      rw [hafter] at hstop
      simpa using hstop
    have hhost : Takes ('[' :: cs) ('[' :: cs.takeWhile (· ≠ ']') ++ [close]) after := by
      constructor
      · have := List.takeWhile_append_dropWhile (p := fun c => decide (c ≠ ']')) (l := cs)
        rw [hafter] at this
        rw [List.cons_append, List.cons_append, List.append_assoc, List.singleton_append, this]
      · rw [List.cons_append, List.all_cons, List.all_append,
          all_isIriChar_of_checkAddress hcheck, hclose]
        decide
    split at h
    · cases h
      exact hhost
    · split at h
      · exact takes_of_readPort? hhost h
      · cases h

theorem takes_of_readHost {cs taken rest : List Char} (h : readHost cs = .ok (taken, rest)) :
    Takes cs taken rest := by
  unfold readHost at h
  split at h
  · exact takes_of_readBracketed h
  · obtain ⟨⟨name, mid⟩, hname, h⟩ := exists_of_bind_eq_ok h
    exact takes_of_readPort? (takes_of_readUntil (fun _ => isIriChar_of_isHostChar) hname).1 h

theorem takes_of_readAuthority {cs taken rest : List Char}
    (h : readAuthority cs = .ok (taken, rest)) : Takes cs taken rest := by
  obtain ⟨⟨user, mid⟩, huser, h⟩ := exists_of_bind_eq_ok h
  have htakes := (takes_of_readUntil (fun _ => isIriChar_of_isUserChar) huser).1
  dsimp only at h
  split at h
  · obtain ⟨⟨host, rest'⟩, hhost, heq⟩ := exists_of_map_eq_ok h
    cases heq
    exact htakes.append ((takes_of_readHost hhost).cons (by decide))
  · exact takes_of_readHost h

/-! ## Path, query and fragment -/

theorem takes_of_readPath {cs path rest : List Char} (h : readPath cs = .ok (path, rest)) :
    Takes cs path rest ∧ ∀ c ∈ rest.head?, endsPath c :=
  takes_of_readUntil (fun _ => isIriChar_of_isPathChar) h

theorem takes_of_readFragment {cs fragment : List Char} (h : readFragment cs = .ok fragment) :
    Takes cs fragment [] := by
  obtain ⟨⟨taken, rest⟩, hread, heq⟩ := exists_of_map_eq_ok h
  have htakes := takes_of_readUntil (fun _ => isIriChar_of_isFragmentChar) hread
  cases heq
  cases rest with
  | nil => exact htakes.1
  | cons c rest => exact absurd (htakes.2 c rfl) Bool.false_ne_true

/-- The suffix of an IRI is taken whole where nothing but its marks can stand in front. -/
theorem takes_of_readSuffix {cs : List Char} {query fragment : Option (List Char)}
    (h : readSuffix cs = .ok (query, fragment)) (hcs : ∀ c ∈ cs.head?, endsPath c) :
    Takes cs (marked ['?'] query ++ marked ['#'] fragment) [] := by
  unfold readSuffix at h
  split at h
  · next cs =>
    obtain ⟨⟨taken, rest⟩, hquery, h⟩ := exists_of_bind_eq_ok h
    obtain ⟨htakes, hhead⟩ := takes_of_readUntil (fun _ => isIriChar_of_isQueryChar) hquery
    dsimp only at h
    split at h
    · obtain ⟨fragment', hfragment, heq⟩ := exists_of_map_eq_ok h
      cases heq
      exact (htakes.cons (by decide)).append ((takes_of_readFragment hfragment).cons (by decide))
    · next hnone =>
      cases h
      cases rest with
      | nil => exact (htakes.cons (by decide)).append (takes_nil _)
      | cons c rest =>
        have hc := hhead c rfl
        simp only [decide_eq_true_eq] at hc
        exact absurd (congrArg (· :: rest) hc) (hnone rest)
  · obtain ⟨fragment', hfragment, heq⟩ := exists_of_map_eq_ok h
    cases heq
    exact (takes_of_readFragment hfragment).cons (by decide)
  · next hquery hfragment =>
    cases h
    cases cs with
    | nil => exact takes_nil _
    | cons c cs =>
      have hc := hcs c rfl
      simp only [endsPath, Bool.or_eq_true, decide_eq_true_eq] at hc
      rcases hc with rfl | rfl
      · exact absurd rfl (hquery cs)
      · exact absurd rfl (hfragment cs)

/-! ## Whole IRIs -/

/-- What was read is the text after the scheme, component by component. -/
theorem of_readAfterAuthority {scheme cs : List Char} {authority : Option (List Char)} {i : Iri}
    (h : readAfterAuthority scheme authority cs = .ok i) :
    i.scheme = scheme ∧ i.authority = authority
      ∧ Takes cs (i.path ++ (marked ['?'] i.query ++ marked ['#'] i.fragment)) [] := by
  obtain ⟨⟨path, rest⟩, hpath, h⟩ := exists_of_bind_eq_ok h
  obtain ⟨⟨query, fragment⟩, hsuffix, h⟩ := exists_of_bind_eq_ok h
  obtain ⟨htakes, hhead⟩ := takes_of_readPath hpath
  cases h
  exact ⟨rfl, rfl, htakes.append (takes_of_readSuffix hsuffix hhead)⟩

theorem of_readAfterScheme {scheme cs : List Char} {i : Iri}
    (h : readAfterScheme scheme cs = .ok i) :
    i.chars = scheme ++ ':' :: cs ∧ cs.all isIriChar := by
  have hwhole : ∀ {taken : List Char}, Takes cs taken [] → taken = cs ∧ cs.all isIriChar := by
    intro taken htakes
    have heq := htakes.1
    rw [List.append_nil] at heq
    exact ⟨heq.symm, heq ▸ htakes.2⟩
  unfold readAfterScheme at h
  split at h
  · next cs =>
    obtain ⟨⟨authority, rest⟩, hauthority, h⟩ := exists_of_bind_eq_ok h
    obtain ⟨hscheme, hauth, htakes⟩ := of_readAfterAuthority h
    have hslashes : Takes ('/' :: '/' :: cs) ('/' :: '/' :: authority) rest :=
      ((takes_of_readAuthority hauthority).cons (by decide)).cons (by decide)
    obtain ⟨heq, hall⟩ := hwhole (hslashes.append htakes)
    refine ⟨?_, hall⟩
    rw [chars, hscheme, hauth, ← heq]
    simp only [marked, List.append_assoc, List.cons_append, List.nil_append]
  · obtain ⟨hscheme, hauth, htakes⟩ := of_readAfterAuthority h
    obtain ⟨heq, hall⟩ := hwhole htakes
    refine ⟨?_, hall⟩
    rw [chars, hscheme, hauth, ← heq]
    simp only [marked, List.append_assoc, List.nil_append]

theorem of_scheme? {cs scheme rest : List Char} (h : scheme? cs = some (scheme, rest)) :
    cs = scheme ++ ':' :: rest ∧ scheme.all isSchemeChar ∧ ∀ c ∈ cs.head?, c.isAlpha := by
  unfold scheme? at h
  split at h
  · cases h
  · next first tail =>
    split at h
    · next halpha =>
      split at h
      · next hcolon =>
        cases h
        have hsplit := List.takeWhile_append_dropWhile (p := isSchemeChar) (l := first :: tail)
        rw [hcolon] at hsplit
        refine ⟨hsplit.symm, List.all_takeWhile, ?_⟩
        intro c hc
        cases hc
        exact halpha
      · cases h
    · cases h

/-- A text that is an IRI starts with a scheme. -/
theorem exists_scheme_of_ofChars {cs : List Char} {i : Iri} (h : ofChars cs = .ok i) :
    ∃ scheme rest, scheme? cs = some (scheme, rest) ∧ readAfterScheme scheme rest = .ok i := by
  unfold ofChars at h
  split at h
  · next scheme rest hscheme => exact ⟨scheme, rest, hscheme, h⟩
  · split at h
    · cases h
    · obtain ⟨_, _, h⟩ := exists_of_bind_eq_ok h
      cases h

/-- An IRI writes the text that it was read from. -/
theorem chars_of_ofChars {cs : List Char} {i : Iri} (h : ofChars cs = .ok i) : i.chars = cs := by
  obtain ⟨scheme, rest, hscheme, hread⟩ := exists_scheme_of_ofChars h
  rw [(of_readAfterScheme hread).1, ← (of_scheme? hscheme).1]

theorem all_isIriChar_of_ofChars {cs : List Char} {i : Iri} (h : ofChars cs = .ok i) :
    cs.all isIriChar := by
  obtain ⟨scheme, rest, hscheme, hread⟩ := exists_scheme_of_ofChars h
  obtain ⟨heq, hall, _⟩ := of_scheme? hscheme
  rw [heq, List.all_append, List.all_cons, (of_readAfterScheme hread).2, List.all_eq_true.2
    fun c hc => isIriChar_of_isSchemeChar (List.all_eq_true.1 hall c hc)]
  decide

theorem text_of_parse {text : String} {i : Iri} (h : parse text = .ok i) : i.text = text := by
  rw [Iri.text, chars_of_ofChars h, String.ofList_toList]

/-- What brings its own scheme is the same IRI against every base. -/
theorem resolve_of_parse {text : String} {i : Iri} (h : parse text = .ok i) (base : Iri) :
    base.resolve text = .ok i := by
  obtain ⟨scheme, rest, hscheme, hread⟩ := exists_scheme_of_ofChars h
  unfold resolve resolveChars
  rw [hscheme]
  exact hread

/-! ## Resolving -/

/-- A path that is continued takes what is in front as it is, whatever becomes of its dots. -/
theorem exists_takes_of_readDotPath {hasAuthority : Bool} {reversed cs path rest : List Char}
    (h : readDotPath hasAuthority reversed cs = .ok (path, rest)) :
    (∃ taken, Takes cs taken rest) ∧ ∀ c ∈ rest.head?, endsPath c := by
  fun_induction readDotPath hasAuthority reversed cs generalizing path rest with
  | case1 =>
    obtain ⟨closed, -, heq⟩ := exists_of_map_eq_ok h
    cases heq
    exact ⟨⟨[], takes_nil _⟩, nofun⟩
  | case2 reversed cs closed hclose ih =>
    obtain ⟨⟨taken, htakes⟩, hhead⟩ := ih h
    exact ⟨⟨_, htakes.cons (by decide)⟩, hhead⟩
  | case3 => cases h
  | case4 reversed c cs hslash hends =>
    obtain ⟨closed, -, heq⟩ := exists_of_map_eq_ok h
    cases heq
    refine ⟨⟨[], takes_nil _⟩, ?_⟩
    intro d hd
    cases hd
    exact hends
  | case5 reversed c cs hslash hends hchar ih =>
    obtain ⟨⟨taken, htakes⟩, hhead⟩ := ih h
    exact ⟨⟨_, htakes.cons (isIriChar_of_isSegmentChar hchar)⟩, hhead⟩
  | case6 reversed high low cs hdigits _ _ _ ih =>
    rw [Bool.and_eq_true] at hdigits
    obtain ⟨⟨taken, htakes⟩, hhead⟩ := ih h
    exact ⟨⟨_, ((htakes.cons (isIriChar_of_isHexDigit hdigits.2)).cons
      (isIriChar_of_isHexDigit hdigits.1)).cons (by decide)⟩, hhead⟩
  | case7 => cases h
  | case8 => cases h
  | case9 => cases h

/-- What a path is continued with is no less an IRI's than what is read whole. -/
theorem all_of_continuePath {base i : Iri} {reversed cs : List Char}
    (h : continuePath base reversed cs = .ok i) : cs.all isIriChar := by
  obtain ⟨⟨path, rest⟩, hpath, h⟩ := exists_of_bind_eq_ok h
  obtain ⟨⟨query, fragment⟩, hsuffix, -⟩ := exists_of_bind_eq_ok h
  obtain ⟨⟨taken, htakes⟩, hhead⟩ := exists_takes_of_readDotPath hpath
  exact all_of_exists_takes_nil ⟨_, htakes.append (takes_of_readSuffix hsuffix hhead)⟩

theorem all_of_resolveRelative {base i : Iri} {cs : List Char}
    (h : resolveRelative base cs = .ok i) : cs.all isIriChar := by
  have hsuffix : ∀ {c : Char} {cs : List Char} {suffix : Option (List Char) × Option (List Char)},
      endsPath c → readSuffix (c :: cs) = .ok suffix → (c :: cs).all isIriChar := by
    intro c cs suffix hc h
    apply all_of_exists_takes_nil
    refine ⟨_, takes_of_readSuffix h ?_⟩
    intro d hd
    cases hd
    exact hc
  unfold resolveRelative at h
  split at h
  · rfl
  · exact (of_readAfterScheme h).2
  · rw [List.all_cons, all_of_continuePath h]
    decide
  · obtain ⟨suffix, hread, -⟩ := exists_of_bind_eq_ok h
    exact hsuffix (by decide) hread
  · obtain ⟨suffix, hread, -⟩ := exists_of_bind_eq_ok h
    exact hsuffix (by decide) hread
  · obtain ⟨⟨segment, rest⟩, hread, h⟩ := exists_of_bind_eq_ok h
    have htakes := (takes_of_readUntil (fun _ => isIriChar_of_isFirstSegmentChar) hread).1
    rw [htakes.1, List.all_append, htakes.2, all_of_continuePath h]
    rfl

/-- Every reference that is resolved is made of what can stand in IRIs. -/
theorem all_isIriChar_of_resolve {base i : Iri} {text : String} (h : base.resolve text = .ok i) :
    text.toList.all isIriChar := by
  unfold resolve resolveChars at h
  split at h
  · next scheme rest hscheme =>
    obtain ⟨heq, hall, -⟩ := of_scheme? hscheme
    rw [heq, List.all_append, List.all_cons, (of_readAfterScheme h).2, List.all_eq_true.2
      fun c hc => isIriChar_of_isSchemeChar (List.all_eq_true.1 hall c hc)]
    decide
  · split at h
    · cases h
    · exact all_of_resolveRelative h

end TidyTrig.Iri
