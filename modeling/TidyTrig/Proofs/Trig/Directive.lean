import TidyTrig.Proofs.Text.Utf8
import TidyTrig.Rdf.Term
import TidyTrig.Trig.Directive

/-!
# Which directives a scan finds

`finds` is what a scan finds, told by what follows each directive: it depends on the bytes before
only as far as a token may start after them. `parts?_eq_some_iff` spells out the form of a
directive, and the lemmas after it tell how the scan passes what is none: blanks, words, strings,
IRIs and comments.
-/

namespace TidyTrig.Trig.Directive

open Utf8 (byte encode decodeLossy)

/-! ## The form of a directive -/

/-- Whether some bytes are the keyword of a directive. -/
def isKeyword (word : Bytes) : Bool :=
  word = byte '@' :: encode "prefix" || word.map lowerByte = encode "prefix"

/-- Whether a byte may stand between the brackets of a directive. -/
def isIriByte (b : UInt8) : Bool := !(b = byte '>' || b = byte '\n')

theorem partBefore?_eq_some_iff {close : UInt8} {isInside : UInt8 → Bool}
    (hclose : isInside close = false) {bytes inside rest : Bytes} :
    partBefore? close isInside bytes = some (inside, rest)
      ↔ bytes = inside ++ close :: rest ∧ inside.all isInside := by
  unfold partBefore?
  constructor
  · intro h
    split at h
    · next b rest' hdrop =>
      split at h
      · next hb =>
        cases h
        refine ⟨?_, List.all_takeWhile⟩
        rw [← hb, ← hdrop, List.takeWhile_append_dropWhile]
      · cases h
    · cases h
  · rintro ⟨rfl, hinside⟩
    have hall := List.all_eq_true.1 hinside
    rw [List.dropWhile_append_of_pos hall, List.takeWhile_append_of_pos hall,
      List.dropWhile_cons_of_neg (by simp [hclose]), List.takeWhile_cons_of_neg (by simp [hclose])]
    dsimp only
    rw [if_pos rfl, List.append_nil]

/-- What some bytes do not go on with is what follows them. -/
theorem dropWhile_append_of_head {p : UInt8 → Bool} {front rest : Bytes} (hfront : front.all p)
    (hrest : ∀ b ∈ rest.head?, p b = false) :
    (front ++ rest).dropWhile p = rest ∧ (front ++ rest).takeWhile p = front := by
  have hall := List.all_eq_true.1 hfront
  rw [List.dropWhile_append_of_pos hall, List.takeWhile_append_of_pos hall]
  cases rest with
  | nil => exact ⟨rfl, List.append_nil front⟩
  | cons b rest =>
    have hb : ¬ p b = true := by simp [hrest b rfl]
    rw [List.dropWhile_cons_of_neg hb, List.takeWhile_cons_of_neg hb, List.append_nil]
    exact ⟨rfl, rfl⟩

theorem afterBlanks?_eq_some_iff {bytes rest : Bytes} :
    afterBlanks? bytes = some rest
      ↔ ∃ gap, bytes = gap ++ rest ∧ gap ≠ [] ∧ gap.all isBlank
        ∧ ∀ b ∈ rest.head?, isBlank b = false := by
  unfold afterBlanks?
  constructor
  · intro h
    split at h
    · cases h
    · next hgap =>
      cases h
      refine ⟨bytes.takeWhile isBlank, (List.takeWhile_append_dropWhile).symm, ?_,
        List.all_takeWhile, ?_⟩
      · intro hnil
        rw [hnil] at hgap
        exact hgap rfl
      · intro b hb
        have hhead := List.head?_dropWhile_not isBlank bytes
        rw [Option.mem_def.1 hb] at hhead
        simpa using hhead
  · rintro ⟨gap, rfl, hne, hall, hrest⟩
    obtain ⟨hdrop, htake⟩ := dropWhile_append_of_head hall hrest
    rw [htake, hdrop, if_neg (by simpa using hne)]

theorem length_of_isKeyword {word : Bytes} (h : isKeyword word) :
    word = byte '@' :: encode "prefix" ∨ word.length = 6 := by
  rw [isKeyword, Bool.or_eq_true, decide_eq_true_eq, decide_eq_true_eq] at h
  rcases h with h | h
  · exact .inl h
  · right
    have hlength := congrArg List.length h
    rw [List.length_map] at hlength
    exact hlength

theorem afterKeyword?_eq_some_iff {bytes rest : Bytes} :
    afterKeyword? bytes = some rest ↔ ∃ word, bytes = word ++ rest ∧ isKeyword word := by
  have hat : (byte '@' :: encode "prefix").length = 7 := rfl
  unfold afterKeyword?
  dsimp only
  constructor
  · intro h
    split at h
    · next htake =>
      cases h
      refine ⟨bytes.take 7, (List.take_append_drop 7 bytes).symm, ?_⟩
      rw [htake]
      rfl
    · split at h
      · next htake =>
        cases h
        refine ⟨bytes.take 6, (List.take_append_drop 6 bytes).symm, ?_⟩
        rw [isKeyword, Bool.or_eq_true, decide_eq_true_eq, decide_eq_true_eq]
        exact .inr htake
      · cases h
  · rintro ⟨word, rfl, hword⟩
    rcases length_of_isKeyword hword with rfl | hlength
    · rw [List.take_left' hat, if_pos rfl, List.drop_left' hat]
    · have hmap : word.map lowerByte = encode "prefix" := by
        rw [isKeyword, Bool.or_eq_true, decide_eq_true_eq, decide_eq_true_eq] at hword
        rcases hword with rfl | hmap
        · cases hlength
        · exact hmap
      rw [List.take_left' hlength, List.drop_left' hlength, if_pos hmap, if_neg]
      -- The first letter of the word is no `@`.
      intro htake
      cases word with
      | nil => cases hlength
      | cons b tail =>
        rw [List.cons_append, List.take_succ_cons] at htake
        rw [List.map_cons, (List.cons.inj htake).1] at hmap
        cases hmap

/-- The parts that a directive is made of: a keyword, blanks, a name, blanks again and an IRI. -/
structure IsForm (word gap name gap' iri : Bytes) : Prop where
  word : isKeyword word
  gap_ne_nil : gap ≠ []
  gap : gap.all isBlank
  name : name.all isNameByte
  gap' : gap'.all isBlank
  iri : iri.all isIriByte

/-- A directive of these parts, and what follows it. -/
def formBytes (word gap name gap' iri after : Bytes) : Bytes :=
  word ++ (gap ++ (name ++ byte ':' :: (gap' ++ byte '<' :: (iri ++ byte '>' :: after))))

theorem formBytes_append (word gap name gap' iri dots later : Bytes) :
    formBytes word gap name gap' iri (dots ++ later)
      = formBytes word gap name gap' iri dots ++ later := by
  simp only [formBytes, List.append_assoc, List.cons_append]

theorem isBlank_of_isNameByte {b : UInt8} (h : isNameByte b) : isBlank b = false := by
  simp only [isNameByte, Bool.not_eq_true', Bool.or_eq_false_iff] at h
  exact h.1.1.1

theorem head?_name_colon {name : Bytes} (hname : name.all isNameByte) (rest : Bytes) :
    ∀ b ∈ (name ++ byte ':' :: rest).head?, isBlank b = false := by
  intro b hb
  cases name with
  | nil =>
    cases hb
    decide
  | cons c name =>
    cases hb
    rw [List.all_cons, Bool.and_eq_true] at hname
    exact isBlank_of_isNameByte hname.1

/-- What a directive in front consists of. -/
theorem parts?_eq_some_iff {bytes name iri rest : Bytes} :
    parts? bytes = some (name, iri, rest)
      ↔ ∃ word gap gap' after, IsForm word gap name gap' iri
        ∧ bytes = formBytes word gap name gap' iri after
        ∧ rest = (afterDot after).dropWhile isBlank := by
  unfold parts?
  simp only [Option.bind_eq_bind, Option.bind_eq_some_iff, afterKeyword?_eq_some_iff,
    afterBlanks?_eq_some_iff, Option.some.injEq, Prod.mk.injEq]
  constructor
  · rintro ⟨r₁, ⟨word, rfl, hword⟩, r₂, ⟨gap, rfl, hne, hgap, -⟩, ⟨name', r₃⟩, hname, ⟨gap', r₄⟩,
      hgap', ⟨iri', r₅⟩, hiri, rfl, rfl, rfl⟩
    obtain ⟨rfl, hname'⟩ := (partBefore?_eq_some_iff (by decide)).1 hname
    obtain ⟨rfl, hblank⟩ := (partBefore?_eq_some_iff (by decide)).1 hgap'
    obtain ⟨rfl, hiri'⟩ := (partBefore?_eq_some_iff (by decide)).1 hiri
    exact ⟨word, gap, gap', r₅, ⟨hword, hne, hgap, hname', hblank, hiri'⟩, rfl, rfl⟩
  · rintro ⟨word, gap, gap', after, hform, rfl, rfl⟩
    exact ⟨_, ⟨word, rfl, hform.word⟩, _,
      ⟨gap, rfl, hform.gap_ne_nil, hform.gap, head?_name_colon hform.name _⟩, (name, _),
      (partBefore?_eq_some_iff (by decide)).2 ⟨rfl, hform.name⟩, (gap', _),
      (partBefore?_eq_some_iff (by decide)).2 ⟨rfl, hform.gap'⟩, (iri, after),
      (partBefore?_eq_some_iff (by decide)).2 ⟨rfl, hform.iri⟩, rfl, rfl, rfl⟩

/-! ## What a scan finds -/

/-- The declaration of a directive as it is written. -/
def space (d : Directive) : Namespace := ⟨d.name, d.iri⟩

/-- The directives that a scan finds, given whether a token may start in front: each by what it
declares, with what follows it. -/
def finds (mayStart : Bool) (bytes : Bytes) : List (Namespace × Bytes) :=
  (scanFrom (if mayStart then none else some (byte ':')) 0 bytes).map fun d =>
    (space d, bytes.drop d.stop)

/-- What the directives declare that a scan finds. -/
def spaces (mayStart : Bool) (bytes : Bytes) : List Namespace := (finds mayStart bytes).map Prod.fst

theorem spaces_of_finds {mayStart mayStart' : Bool} {bytes bytes' : Bytes}
    (h : finds mayStart bytes = finds mayStart' bytes') : spaces mayStart bytes = spaces mayStart' bytes' :=
  congrArg (List.map Prod.fst) h

/-- Where a scan goes on after some bytes. -/
theorem drop_pred {b : UInt8} {rest : Bytes} {n : Nat} (h : 0 < n) :
    rest.drop (n - 1) = (b :: rest).drop n := by
  cases n with
  | zero => cases h
  | succ n => rfl

theorem lengthThrough_le (p : UInt8 → Bool) (bytes : Bytes) : lengthThrough p bytes ≤ bytes.length := by
  unfold lengthThrough
  split
  · next n hn => exact (List.findIdx?_eq_some_iff_getElem.1 hn).1
  · exact Nat.le_refl _

theorem length_of_take_eq_pair {quote : UInt8} {bytes : Bytes} (h : bytes.take 2 = [quote, quote]) :
    2 ≤ bytes.length := by
  have hlength := congrArg List.length h
  simp only [List.length_take, List.length_cons, List.length_nil] at hlength
  omega

theorem lengthToQuote_le (quote : UInt8) (isLong : Bool) (bytes : Bytes) :
    lengthToQuote quote isLong bytes ≤ bytes.length := by
  fun_induction lengthToQuote quote isLong bytes with
  | case1 => exact Nat.le_refl _
  | case2 => exact Nat.le_refl _
  | case3 b rest ih =>
    simp only [List.length_cons]
    omega
  | case4 b rest _ _ hclose =>
    rw [Bool.and_eq_true, decide_eq_true_eq, decide_eq_true_eq] at hclose
    have := length_of_take_eq_pair hclose.2
    rw [List.length_cons]
    omega
  | case5 b rest _ _ _ ih =>
    rw [List.length_cons]
    omega
  | case6 => exact Nat.succ_pos _
  | case7 b rest _ _ _ ih =>
    rw [List.length_cons]
    omega

theorem stringLength_le (bytes : Bytes) : stringLength bytes ≤ bytes.length := by
  cases bytes with
  | nil => exact Nat.le_refl _
  | cons quote rest =>
    have hlong := lengthToQuote_le quote true (rest.drop 2)
    have hshort := lengthToQuote_le quote false rest
    rw [List.length_drop] at hlong
    rw [stringLength, List.length_cons]
    split
    · next h =>
      have := length_of_take_eq_pair h
      omega
    · omega

theorem iriLength_le (bytes : Bytes) : iriLength bytes ≤ bytes.length := by
  cases bytes with
  | nil => exact Nat.le_refl _
  | cons b rest =>
    have := lengthThrough_le (fun b => b = byte '>' || b = byte '\n') rest
    rw [iriLength, List.length_cons]
    omega

/-- A scan steps over nothing that is not there. -/
theorem stride_le (b : UInt8) (rest : Bytes) : stride b rest ≤ rest.length + 1 := by
  unfold stride
  split
  · exact lengthThrough_le _ (b :: rest)
  · split
    · exact stringLength_le (b :: rest)
    · split
      · exact iriLength_le (b :: rest)
      · exact Nat.le_add_left 1 rest.length

theorem lengthThrough_pos (p : UInt8 → Bool) (b : UInt8) (rest : Bytes) :
    0 < lengthThrough p (b :: rest) := by
  unfold lengthThrough
  split
  · exact Nat.succ_pos _
  · exact Nat.succ_pos _

theorem stringLength_pos (b : UInt8) (rest : Bytes) : 0 < stringLength (b :: rest) := by
  unfold stringLength
  dsimp only
  split <;> omega

theorem iriLength_pos (b : UInt8) (rest : Bytes) : 0 < iriLength (b :: rest) := by
  unfold iriLength
  dsimp only
  omega

theorem stride_pos (b : UInt8) (rest : Bytes) : 0 < stride b rest := by
  unfold stride
  split
  · exact lengthThrough_pos _ b rest
  · split
    · exact stringLength_pos b rest
    · split
      · exact iriLength_pos b rest
      · exact Nat.one_pos

/-- Whether a directive may take these bytes of what follows its IRI: blanks, with a dot or without. -/
def IsEnding (dots : Bytes) : Prop :=
  dots.all isBlank
    ∨ ∃ gap gap', gap.all isBlank ∧ gap'.all isBlank ∧ dots = gap ++ byte '.' :: gap'

theorem IsEnding.all {dots : Bytes} (h : IsEnding dots) :
    dots.all fun b => isBlank b || b = byte '.' := by
  have hblanks : ∀ {gap : Bytes}, gap.all isBlank → gap.all fun b => isBlank b || b = byte '.' := by
    intro gap hgap
    apply List.all_eq_true.2
    intro b hb
    rw [List.all_eq_true.1 hgap b hb]
    rfl
  rcases h with hblank | ⟨gap, gap', hgap, hgap', rfl⟩
  · exact hblanks hblank
  · rw [List.all_append, List.all_cons, hblanks hgap, hblanks hgap']
    rfl

/-- There is one dot at most. -/
theorem IsEnding.not_mem {dots gap rest : Bytes} (h : IsEnding dots)
    (hdots : dots = gap ++ byte '.' :: rest) : byte '.' ∉ rest := by
  have hblank : ∀ {gap : Bytes}, gap.all isBlank → gap.count (byte '.') = 0 := by
    intro gap hgap
    rw [List.count_eq_zero]
    intro hmem
    exact absurd (List.all_eq_true.1 hgap _ hmem) (by decide)
  have hcount : dots.count (byte '.') ≤ 1 := by
    rcases h with hall | ⟨gap, gap', hgap, hgap', rfl⟩
    · rw [hblank hall]
      exact Nat.zero_le 1
    · simp [hblank hgap, hblank hgap']
  rw [hdots, List.count_append, List.count_cons_self] at hcount
  rw [← List.count_eq_zero]
  omega

/-- The dot after a directive, if there is one, and blanks are what it takes of what follows. -/
theorem exists_ending_of_afterDot (after : Bytes) :
    ∃ dots, IsEnding dots ∧ after = dots ++ (afterDot after).dropWhile isBlank := by
  have hblanks : ∀ bytes : Bytes, (bytes.takeWhile isBlank).all isBlank := fun _ =>
    List.all_takeWhile
  have hsplit : ∀ bytes : Bytes, bytes = bytes.takeWhile isBlank ++ bytes.dropWhile isBlank :=
    fun _ => List.takeWhile_append_dropWhile.symm
  unfold afterDot
  split
  · next b rest hdrop =>
    split
    · next hdot =>
      refine ⟨after.takeWhile isBlank ++ byte '.' :: rest.takeWhile isBlank,
        .inr ⟨_, _, hblanks after, hblanks rest, rfl⟩, ?_⟩
      rw [List.append_assoc, List.cons_append, ← hsplit rest, ← hdot, ← hdrop, ← hsplit after]
    · exact ⟨_, .inl (hblanks after), hsplit after⟩
  · exact ⟨_, .inl (hblanks after), hsplit after⟩

/-- A directive takes all bytes up to what follows it. -/
theorem exists_form_of_parts? {bytes name iri rest : Bytes}
    (h : parts? bytes = some (name, iri, rest)) :
    ∃ word gap gap' dots, IsForm word gap name gap' iri ∧ IsEnding dots
      ∧ bytes = formBytes word gap name gap' iri dots ++ rest := by
  obtain ⟨word, gap, gap', after, hform, hbytes, hrest⟩ := parts?_eq_some_iff.1 h
  obtain ⟨dots, hending, hdots⟩ := exists_ending_of_afterDot after
  refine ⟨word, gap, gap', dots, hform, hending, ?_⟩
  rw [hbytes, ← formBytes_append, hrest, ← hdots]

theorem formBytes_ne_nil (word gap name gap' iri dots : Bytes) :
    formBytes word gap name gap' iri dots ≠ [] := by
  simp [formBytes]

theorem exists_front_of_parts? {bytes name iri rest : Bytes}
    (h : parts? bytes = some (name, iri, rest)) : ∃ front, bytes = front ++ rest ∧ front ≠ [] := by
  obtain ⟨word, gap, gap', dots, -, -, hbytes⟩ := exists_form_of_parts? h
  exact ⟨_, hbytes, formBytes_ne_nil _ _ _ _ _ _⟩

section

variable {before before' : Option UInt8} {offset : Nat} {b : UInt8} {rest : Bytes}

theorem ofFront?_of_none (h : mayPrecede before → parts? (b :: rest) = none) :
    ofFront? before offset (b :: rest) = none := by
  unfold ofFront?
  split
  · next hbefore => rw [h hbefore]
  · rfl

theorem ofFront?_of_some (hbefore : mayPrecede before) {name iri later : Bytes}
    (h : parts? (b :: rest) = some (name, iri, later)) :
    ofFront? before offset (b :: rest) = some ⟨decodeLossy name, decodeLossy iri, offset,
      offset + ((b :: rest).length - later.length)⟩ := by
  unfold ofFront?
  rw [if_pos hbefore, h]

/-- Where no directive is found, the scan goes on behind what it passes. -/
theorem scanFrom_of_none (h : mayPrecede before → parts? (b :: rest) = none) :
    scanFrom before offset (b :: rest)
      = scanFrom ((b :: rest).take (stride b rest)).getLast? (offset + stride b rest)
        ((b :: rest).drop (stride b rest)) := by
  rw [scanFrom]
  split
  · next d hd =>
    rw [ofFront?_of_none h] at hd
    cases hd
  · dsimp only
    rw [drop_pred (b := b) (stride_pos b rest)]

/-- Where a directive is found, the scan goes on behind it. -/
theorem scanFrom_of_some (hbefore : mayPrecede before) {name iri later front : Bytes}
    (h : parts? (front ++ later) = some (name, iri, later)) (hfront : front ≠ []) :
    scanFrom before offset (front ++ later)
      = ⟨decodeLossy name, decodeLossy iri, offset, offset + front.length⟩
        :: scanFrom front.getLast? (offset + front.length) later := by
  cases front with
  | nil => exact absurd rfl hfront
  | cons b tail =>
    rw [List.cons_append] at h ⊢
    have hfound := @ofFront?_of_some before offset b (tail ++ later) hbefore name iri later h
    have hlength : (b :: (tail ++ later)).length - later.length = (b :: tail).length := by
      simp only [List.length_cons, List.length_append]
      omega
    rw [hlength] at hfound
    rw [scanFrom]
    split
    · next d hd =>
      rw [hfound] at hd
      cases hd
      have hstop : offset + (b :: tail).length - offset = (b :: tail).length := by omega
      dsimp only
      have hpos : 0 < (b :: tail).length := Nat.succ_pos _
      rw [hstop, drop_pred (b := b) hpos, ← List.cons_append, List.take_left, List.drop_left]
    · next hd =>
      rw [hfound] at hd
      cases hd

end

/-- A scan passes some bytes and goes on behind them. They are those of a directive or it finds none. -/
theorem scanFrom_cases (before : Option UInt8) (offset : Nat) {bytes : Bytes} (hne : bytes ≠ []) :
    ∃ front later, bytes = front ++ later ∧ front ≠ []
      ∧ (scanFrom before offset bytes = scanFrom front.getLast? (offset + front.length) later
        ∨ mayPrecede before ∧ ∃ name iri, parts? (front ++ later) = some (name, iri, later)
          ∧ scanFrom before offset bytes
            = ⟨decodeLossy name, decodeLossy iri, offset, offset + front.length⟩
              :: scanFrom front.getLast? (offset + front.length) later) := by
  obtain ⟨b, rest, rfl⟩ := List.exists_cons_of_ne_nil hne
  by_cases hfound : ∃ found, mayPrecede before ∧ parts? (b :: rest) = some found
  · obtain ⟨⟨name, iri, later⟩, hstart, hparts⟩ := hfound
    obtain ⟨front, hfront, hne⟩ := exists_front_of_parts? hparts
    rw [hfront] at hparts ⊢
    exact ⟨front, later, rfl, hne, .inr ⟨hstart, name, iri, hparts,
      scanFrom_of_some hstart hparts hne⟩⟩
  · have hnone : mayPrecede before → parts? (b :: rest) = none := by
      intro hstart
      rw [Option.eq_none_iff_forall_ne_some]
      exact fun found hparts => hfound ⟨found, hstart, hparts⟩
    have hlength : ((b :: rest).take (stride b rest)).length = stride b rest :=
      List.length_take_of_le (stride_le b rest)
    refine ⟨(b :: rest).take (stride b rest), (b :: rest).drop (stride b rest),
      (List.take_append_drop _ _).symm, ?_, .inl ?_⟩
    · rw [← List.length_pos_iff, hlength]
      exact stride_pos b rest
    · rw [scanFrom_of_none hnone, hlength]

/-- Directives lie within what is scanned, one behind the other, and none is empty. -/
theorem ordered_scanFrom (before : Option UInt8) (offset : Nat) (bytes : Bytes) :
    (∀ d ∈ scanFrom before offset bytes,
        offset ≤ d.start ∧ d.start < d.stop ∧ d.stop ≤ offset + bytes.length)
      ∧ (scanFrom before offset bytes).Pairwise (·.stop ≤ ·.start) := by
  induction hn : bytes.length using Nat.strongRecOn generalizing bytes before offset with
  | ind n ih =>
    by_cases hnil : bytes = []
    · rw [hnil, scanFrom]
      exact ⟨List.forall_mem_nil _, List.Pairwise.nil⟩
    · obtain ⟨front, later, rfl, hne, hscan⟩ := scanFrom_cases before offset hnil
      have hpos := List.length_pos_iff.2 hne
      rw [List.length_append] at hn
      obtain ⟨hbounds, hordered⟩ :=
        ih later.length (by omega) front.getLast? (offset + front.length) later rfl
      rcases hscan with hscan | ⟨-, name, iri, -, hscan⟩
      · rw [hscan]
        refine ⟨?_, hordered⟩
        intro d hd
        have := hbounds d hd
        omega
      · rw [hscan, List.pairwise_cons, List.forall_mem_cons]
        refine ⟨⟨?_, ?_⟩, fun d hd => (hbounds d hd).1, hordered⟩
        · dsimp only
          omega
        · intro d hd
          have := hbounds d hd
          omega

/-- Where a directive is found, a token may start, and its parts lie in front. -/
theorem exists_of_mem_scanFrom {passed rest : Bytes} {d : Directive}
    (hd : d ∈ scanFrom passed.getLast? passed.length rest) :
    ∃ earlier front later name iri, passed ++ rest = earlier ++ (front ++ later)
      ∧ d = ⟨decodeLossy name, decodeLossy iri, earlier.length, earlier.length + front.length⟩
      ∧ mayPrecede earlier.getLast? ∧ parts? (front ++ later) = some (name, iri, later) := by
  induction hn : rest.length using Nat.strongRecOn generalizing passed rest with
  | ind n ih =>
    by_cases hnil : rest = []
    · rw [hnil, scanFrom] at hd
      cases hd
    · obtain ⟨front, later, rfl, hne, hscan⟩ := scanFrom_cases passed.getLast? passed.length hnil
      have hpos := List.length_pos_iff.2 hne
      rw [List.length_append] at hn
      -- Behind these bytes, they are the last that were passed.
      have hbehind : d ∈ scanFrom front.getLast? (passed.length + front.length) later →
          ∃ earlier front' later' name iri,
            passed ++ (front ++ later) = earlier ++ (front' ++ later')
              ∧ d = ⟨decodeLossy name, decodeLossy iri, earlier.length,
                earlier.length + front'.length⟩
              ∧ mayPrecede earlier.getLast? ∧ parts? (front' ++ later') = some (name, iri, later') := by
        intro hd
        have hlast : (passed ++ front).getLast? = front.getLast? := by
          rw [List.getLast?_append, Option.or_of_isSome (by simpa using hne)]
        rw [← List.append_assoc]
        refine ih later.length (by omega) ?_ rfl
        rwa [hlast, List.length_append]
      rcases hscan with hscan | ⟨hstart, name, iri, hparts, hscan⟩
      · rw [hscan] at hd
        exact hbehind hd
      · rw [hscan] at hd
        rcases List.mem_cons.1 hd with rfl | hd
        · exact ⟨passed, front, later, name, iri, rfl, rfl, hstart, hparts⟩
        · exact hbehind hd

/-- Directives end behind where their scan starts. -/
theorem le_stop_of_mem_scanFrom {before : Option UInt8} {offset : Nat} {bytes : Bytes} :
    ∀ d ∈ scanFrom before offset bytes, offset ≤ d.stop := by
  intro d hd
  have := (ordered_scanFrom before offset bytes).1 d hd
  omega

/-- Directives are found in the order in which they end. -/
theorem pairwise_scanFrom (before : Option UInt8) (offset : Nat) (bytes : Bytes) :
    (scanFrom before offset bytes).Pairwise (·.stop ≤ ·.stop) := by
  obtain ⟨hbounds, hordered⟩ := ordered_scanFrom before offset bytes
  refine hordered.imp_of_mem ?_
  intro d d' _ hd' hle
  have := hbounds d' hd'
  omega

/-- What follows a directive is the same counted from here or from where the scan goes on. -/
theorem map_scanFrom_drop (before : Option UInt8) (offset n : Nat) (bytes : Bytes) :
    ((scanFrom before (offset + n) (bytes.drop n)).map fun d =>
        (space d, bytes.drop (d.stop - offset)))
      = (scanFrom before (offset + n) (bytes.drop n)).map fun d =>
        (space d, (bytes.drop n).drop (d.stop - (offset + n))) := by
  apply List.map_congr_left
  intro d hd
  have hle := le_stop_of_mem_scanFrom d hd
  have hstop : n + (d.stop - (offset + n)) = d.stop - offset := by omega
  rw [List.drop_drop, hstop]

/-- Nothing but whether a directive may follow matters of what lies before, and offsets count from
anywhere. -/
theorem map_scanFrom_congr {before before' : Option UInt8} (offset offset' : Nat) (bytes : Bytes)
    (hbefore : mayPrecede before = mayPrecede before') :
    ((scanFrom before offset bytes).map fun d => (space d, bytes.drop (d.stop - offset)))
      = (scanFrom before' offset' bytes).map fun d => (space d, bytes.drop (d.stop - offset')) := by
  induction hn : bytes.length using Nat.strongRecOn
    generalizing before before' offset offset' bytes with
  | ind n ih =>
    cases bytes with
    | nil => simp [scanFrom]
    | cons b rest =>
      by_cases hfound : ∃ found, mayPrecede before ∧ parts? (b :: rest) = some found
      · obtain ⟨⟨name, iri, later⟩, hstart, hparts⟩ := hfound
        obtain ⟨front, hfront, hne⟩ := exists_front_of_parts? hparts
        rw [hfront] at hparts hn ⊢
        have hlt : later.length < n := by
          rw [← hn, List.length_append]
          have := List.length_pos_iff.2 hne
          omega
        have hbehind := fun before offset =>
          map_scanFrom_drop before offset front.length (front ++ later)
        rw [List.drop_left] at hbehind
        have hlater := @ih later.length hlt front.getLast? front.getLast? (offset + front.length)
          (offset' + front.length) later rfl rfl
        rw [scanFrom_of_some hstart hparts hne, scanFrom_of_some (hbefore ▸ hstart) hparts hne,
          List.map_cons, List.map_cons, hbehind, hbehind, hlater]
        dsimp only
        rw [Nat.add_sub_cancel_left, Nat.add_sub_cancel_left]
        rfl
      · have hnone : mayPrecede before → parts? (b :: rest) = none := by
          intro hstart
          cases hparts : parts? (b :: rest) with
          | none => rfl
          | some found => exact absurd ⟨found, hstart, hparts⟩ hfound
        have hlt : ((b :: rest).drop (stride b rest)).length < n := by
          have := stride_pos b rest
          rw [← hn, List.length_drop, List.length_cons]
          omega
        rw [scanFrom_of_none hnone, scanFrom_of_none (hbefore ▸ hnone), map_scanFrom_drop,
          map_scanFrom_drop]
        exact ih _ hlt _ _ _ rfl rfl

/-- What is found is what is found from a start that says as much of what lies before. -/
theorem map_scanFrom (before : Option UInt8) (offset : Nat) (bytes : Bytes) :
    ((scanFrom before offset bytes).map fun d => (space d, bytes.drop (d.stop - offset)))
      = finds (mayPrecede before) bytes := by
  have hstart : mayPrecede before
      = mayPrecede (if mayPrecede before then none else some (byte ':')) := by
    cases mayPrecede before with
    | true => rfl
    | false => decide
  exact map_scanFrom_congr offset 0 bytes hstart

theorem map_space_scan (bytes : Bytes) : (scan bytes).map space = spaces true bytes := by
  rw [spaces, finds, List.map_map]
  rfl

theorem finds_nil (mayStart : Bool) : finds mayStart [] = [] := by
  rw [finds, scanFrom]
  rfl

/-- What is stepped over as a whole is passed as a whole. -/
theorem finds_stride {mayStart : Bool} {b : UInt8} {tail rest : Bytes}
    (hnone : mayStart → parts? (b :: tail ++ rest) = none)
    (hstride : stride b (tail ++ rest) = (b :: tail).length) :
    finds mayStart (b :: tail ++ rest) = finds (mayPrecede (b :: tail).getLast?) rest := by
  have hstart : mayPrecede (if mayStart then none else some (byte ':')) = mayStart := by
    cases mayStart <;> decide
  rw [List.cons_append] at hnone ⊢
  have hbehind := (map_scanFrom_drop (b :: tail).getLast? 0 (b :: tail).length
    (b :: (tail ++ rest))).trans (map_scanFrom _ _ _)
  rw [← List.cons_append, List.drop_left] at hbehind
  rw [finds, scanFrom_of_none (by rw [hstart]; exact hnone), hstride, ← List.cons_append,
    List.take_left, List.drop_left]
  exact hbehind

/-! ## What is passed a byte at a time -/

/-- Whether nothing that is stepped over as a whole starts with a byte. -/
def isPlainByte (b : UInt8) : Bool :=
  !(b = byte '#' || b = byte '\x22' || b = byte '\x27' || b = byte '<')

/-- A directive starts with a letter or an `@`. -/
theorem parts?_eq_none {b : UInt8} (hb : lowerByte b ≠ byte 'p') (hat : b ≠ byte '@') (rest : Bytes) :
    parts? (b :: rest) = none := by
  rw [Option.eq_none_iff_forall_ne_some]
  rintro ⟨name, iri, later⟩ hparts
  obtain ⟨word, gap, gap', after, hform, hbytes, -⟩ := parts?_eq_some_iff.1 hparts
  have hword := hform.word
  rw [isKeyword, Bool.or_eq_true, decide_eq_true_eq, decide_eq_true_eq] at hword
  cases word with
  | nil => rcases hword with hword | hword <;> cases hword
  | cons c tail =>
    have hbc : b = c := by
      rw [formBytes, List.cons_append] at hbytes
      exact (List.cons.inj hbytes).1
    rcases hword with hword | hword
    · exact hat (hbc.trans (List.cons.inj hword).1)
    · rw [List.map_cons] at hword
      exact hb (hbc ▸ (List.cons.inj hword).1)

theorem stride_of_isPlainByte {b : UInt8} (hb : isPlainByte b) (rest : Bytes) :
    stride b rest = 1 := by
  simp only [isPlainByte, Bool.not_eq_true', Bool.or_eq_false_iff, decide_eq_false_iff_not] at hb
  obtain ⟨⟨⟨hhash, hdouble⟩, hsingle⟩, hangle⟩ := hb
  rw [stride, if_neg hhash, if_neg (by simp [hdouble, hsingle]), if_neg hangle]

theorem finds_byte {mayStart : Bool} {b : UInt8} (hb : isPlainByte b) {rest : Bytes}
    (hnone : mayStart → parts? (b :: rest) = none) :
    finds mayStart (b :: rest) = finds (mayPrecede (some b)) rest := by
  have hpass : finds mayStart (b :: [] ++ rest) = finds (mayPrecede (b :: []).getLast?) rest :=
    finds_stride hnone (stride_of_isPlainByte hb rest)
  exact hpass

/-- Whether a token may start after a word. -/
def mayFollow (mayStart : Bool) (word : Bytes) : Bool :=
  word.getLast?.elim mayStart fun b => mayPrecede (some b)

/-- Whether nothing in a word is stepped over, and no directive starts in it in front of `rest`. -/
def isFree (mayStart : Bool) (rest : Bytes) : Bytes → Bool
  | [] => true
  | b :: tail => isPlainByte b && (!mayStart || (parts? (b :: tail ++ rest)).isNone)
    && isFree (mayPrecede (some b)) rest tail

theorem mayFollow_cons (mayStart : Bool) (b : UInt8) (tail : Bytes) :
    mayFollow mayStart (b :: tail) = mayFollow (mayPrecede (some b)) tail := by
  cases tail with
  | nil => rfl
  | cons c tail => rw [mayFollow, mayFollow, List.getLast?_cons_cons, List.getLast?_cons]; rfl

/-- A free word is passed. -/
theorem finds_word {mayStart : Bool} {word rest : Bytes} (h : isFree mayStart rest word) :
    finds mayStart (word ++ rest) = finds (mayFollow mayStart word) rest := by
  induction word generalizing mayStart with
  | nil => rfl
  | cons b tail ih =>
    rw [isFree, Bool.and_eq_true, Bool.and_eq_true] at h
    obtain ⟨⟨hplain, hnone⟩, htail⟩ := h
    have hparts : mayStart → parts? (b :: (tail ++ rest)) = none := by
      intro hstart
      rw [hstart] at hnone
      simpa using hnone
    rw [List.cons_append, finds_byte hplain hparts, ih htail, mayFollow_cons]

theorem of_isDot {b : UInt8} (h : isBlank b || b = byte '.') :
    isPlainByte b ∧ lowerByte b ≠ byte 'p' ∧ b ≠ byte '@' ∧ mayPrecede (some b) := by
  simp only [isBlank, Bool.or_eq_true, decide_eq_true_eq] at h
  rcases h with (((rfl | rfl) | rfl) | rfl) | rfl <;> decide

/-- Blanks and dots are passed, and a token may start after them. -/
theorem finds_dots {dots : Bytes} (hdots : dots.all fun b => isBlank b || b = byte '.')
    (mayStart : Bool) (rest : Bytes) :
    finds mayStart (dots ++ rest) = finds (mayStart || !dots.isEmpty) rest := by
  induction dots generalizing mayStart with
  | nil => rw [List.isEmpty_nil, Bool.not_true, Bool.or_false, List.nil_append]
  | cons b tail ih =>
    rw [List.all_cons, Bool.and_eq_true] at hdots
    obtain ⟨hplain, hp, hat, hstart⟩ := of_isDot hdots.1
    rw [List.cons_append, finds_byte hplain (fun _ => parts?_eq_none hp hat _), hstart,
      ih hdots.2, List.isEmpty_cons, Bool.true_or, Bool.not_false, Bool.or_true]

/-- Blanks are passed, and a token may start after them. -/
theorem finds_blanks {gap : Bytes} (hgap : gap.all isBlank) (hne : gap ≠ []) (mayStart : Bool)
    (rest : Bytes) : finds mayStart (gap ++ rest) = finds true rest := by
  have hending : IsEnding gap := .inl hgap
  rw [finds_dots hending.all, List.isEmpty_eq_false_iff.2 hne, Bool.not_false, Bool.or_true]

/-! ## What is found -/

/-- A directive is found where a token may start, with what follows its dot and blanks, and none is
lost behind it. -/
theorem finds_formBytes {word gap name gap' iri : Bytes} (hform : IsForm word gap name gap' iri)
    (after : Bytes) :
    finds true (formBytes word gap name gap' iri after)
      = (⟨decodeLossy name, decodeLossy iri⟩, (afterDot after).dropWhile isBlank)
        :: finds false after := by
  obtain ⟨dots, hending, hdots⟩ := exists_ending_of_afterDot after
  have hall := hending.all
  generalize hlater : (afterDot after).dropWhile isBlank = later at hdots
  have hbytes : formBytes word gap name gap' iri after
      = formBytes word gap name gap' iri dots ++ later := by
    rw [hdots, formBytes_append]
  have hparts : parts? (formBytes word gap name gap' iri dots ++ later) = some (name, iri, later) :=
    parts?_eq_some_iff.2 ⟨word, gap, gap', after, hform, hbytes.symm, hlater.symm⟩
  have hne := formBytes_ne_nil word gap name gap' iri dots
  have hstart : mayPrecede (if true then none else some (byte ':')) = true := rfl
  have hlast : mayPrecede (formBytes word gap name gap' iri dots).getLast? = !dots.isEmpty := by
    have hsplit : formBytes word gap name gap' iri dots
        = (word ++ (gap ++ (name ++ byte ':' :: (gap' ++ byte '<' :: iri))) ++ [byte '>']) ++ dots := by
      simp only [formBytes, List.append_assoc, List.cons_append, List.nil_append]
    rw [hsplit, List.getLast?_append, List.getLast?_concat]
    cases hdot : dots.getLast? with
    | none =>
      rw [List.getLast?_eq_none_iff.1 hdot]
      rfl
    | some b =>
      have hb := List.all_eq_true.1 hall b (List.mem_of_getLast? hdot)
      have hne : dots ≠ [] := by
        rintro rfl
        cases hdot
      rw [Option.some_or, (of_isDot hb).2.2.2, List.isEmpty_eq_false_iff.2 hne]
      rfl
  generalize formBytes word gap name gap' iri dots = front at hparts hbytes hne hlast
  have hbehind := (map_scanFrom_drop front.getLast? 0 front.length (front ++ later)).trans
    (map_scanFrom _ _ _)
  rw [List.drop_left, hlast] at hbehind
  have hdrop : (front ++ later).drop (0 + front.length) = later := by
    rw [Nat.zero_add, List.drop_left]
  rw [hbytes, finds, scanFrom_of_some hstart hparts hne, List.map_cons, hdots,
    finds_dots hall, Bool.false_or, ← hbehind]
  dsimp only
  rw [hdrop]
  rfl

end TidyTrig.Trig.Directive
