import TidyTrig.Proofs.Rdf.Order

/-!
# Byte order is code-point order

Terms are compared by the bytes of their canonical forms, and UTF-8 keeps the order of code points.
Both orders are lexicographic, so two texts are compared at their first difference. There the
character with the lower code point also has the lower byte: characters of more bytes have higher
leading bytes, and characters of equally many are written in base 64, the highest digit first
(`differsBelow_encodeChar`). So the bytes of whole texts compare as their code points do
(`compare_encode`).
-/

namespace TidyTrig

open Utf8 (encode encodeChar)

/-! ## The first difference -/

/-- Where two sequences differ first, the former has the lower entry. -/
def DiffersBelow {α : Type} (r : α → α → Prop) (xs ys : List α) : Prop :=
  ∃ front x y back back', xs = front ++ x :: back ∧ ys = front ++ y :: back' ∧ r x y

section

variable {α : Type} {r : α → α → Prop} {xs ys : List α}

theorem DiffersBelow.append (h : DiffersBelow r xs ys) (xs' ys' : List α) :
    DiffersBelow r (xs ++ xs') (ys ++ ys') := by
  obtain ⟨front, x, y, back, back', rfl, rfl, hlt⟩ := h
  exact ⟨front, x, y, back ++ xs', back' ++ ys', by simp, by simp, hlt⟩

theorem DiffersBelow.cons (h : DiffersBelow r xs ys) (x : α) :
    DiffersBelow r (x :: xs) (x :: ys) := by
  obtain ⟨front, y, z, back, back', rfl, rfl, hlt⟩ := h
  exact ⟨x :: front, y, z, back, back', rfl, rfl, hlt⟩

variable {cmp : α → α → Ordering}

/-- What two sequences have in common in front does not matter. -/
theorem compareLex_append_left [Std.ReflCmp cmp] (front xs ys : List α) :
    (front ++ xs).compareLex cmp (front ++ ys) = xs.compareLex cmp ys := by
  induction front with
  | nil => rfl
  | cons x front ih =>
    have hself : cmp x x = .eq := Std.ReflCmp.compare_self
    rw [List.cons_append, List.cons_append, List.compareLex_cons_cons, hself]
    exact ih

/-- In the lexicographic order a sequence comes before what goes on from it, and before what has a
greater entry where they differ first. -/
theorem compareLex_eq_lt_iff [Std.LawfulEqCmp cmp] (hcmp : ∀ x y, cmp x y = .lt ↔ r x y) :
    xs.compareLex cmp ys = .lt ↔ (∃ y rest, ys = xs ++ y :: rest) ∨ DiffersBelow r xs ys := by
  constructor
  · intro h
    induction xs generalizing ys with
    | nil =>
      cases ys with
      | nil => cases h
      | cons y ys => exact .inl ⟨y, ys, rfl⟩
    | cons x xs ih =>
      cases ys with
      | nil => cases h
      | cons y ys =>
        rw [List.compareLex_cons_cons, Ordering.then_eq_lt] at h
        rcases h with hlt | ⟨heq, hrest⟩
        · exact .inr ⟨[], x, y, xs, ys, rfl, rfl, (hcmp x y).1 hlt⟩
        · obtain rfl := Std.LawfulEqCmp.eq_of_compare heq
          rcases ih hrest with ⟨y, rest, rfl⟩ | hdiffers
          · exact .inl ⟨y, rest, rfl⟩
          · exact .inr (hdiffers.cons x)
  · rintro (⟨y, rest, rfl⟩ | ⟨front, x, y, back, back', rfl, rfl, hlt⟩)
    · have h : (xs ++ []).compareLex cmp (xs ++ y :: rest) = [].compareLex cmp (y :: rest) :=
        compareLex_append_left xs [] (y :: rest)
      rw [List.append_nil] at h
      exact h
    · rw [compareLex_append_left, List.compareLex_cons_cons, (hcmp x y).2 hlt]
      rfl

end

/-! ## Characters -/

/-- A number in `k + 1` bytes: the first counts from `lead`, each of the others holds six bits. -/
def sextets (lead : Nat) : Nat → Nat → Bytes
  | 0, n => [.ofNat (lead + n)]
  | k + 1, n => sextets lead k (n / 64) ++ [.ofNat (0x80 + n % 64)]

/-- `HasWidth n lead k` says that the code point `n` is written as `sextets lead k n`. -/
inductive HasWidth (n : Nat) : Nat → Nat → Prop
  | one (h : n < 0x80) : HasWidth n 0 0
  | two (h : 0x80 ≤ n) (h' : n < 0x800) : HasWidth n 0xC0 1
  | three (h : 0x800 ≤ n) (h' : n < 0x10000) : HasWidth n 0xE0 2
  | four (h : 0x10000 ≤ n) (h' : n < 0x110000) : HasWidth n 0xF0 3

theorem exists_hasWidth (c : Char) :
    ∃ lead k, HasWidth c.toNat lead k ∧ encodeChar c = sextets lead k c.toNat := by
  have hlast : c.toNat < 0x110000 := by
    have hvalid : c.toNat < 0xD800 ∨ 0xDFFF < c.toNat ∧ c.toNat < 0x110000 := c.valid
    omega
  rw [encodeChar]
  split
  · next h => exact ⟨0, 0, .one h, by rw [sextets, Nat.zero_add]⟩
  · next h₁ =>
    split
    · next h => exact ⟨0xC0, 1, .two (Nat.le_of_not_lt h₁) h, rfl⟩
    · next h₂ =>
      split
      · next h =>
        refine ⟨0xE0, 2, .three (Nat.le_of_not_lt h₂) h, ?_⟩
        simp only [sextets, Nat.div_div_eq_div_mul]
        rfl
      · next h₃ =>
        refine ⟨0xF0, 3, .four (Nat.le_of_not_lt h₃) hlast, ?_⟩
        simp only [sextets, Nat.div_div_eq_div_mul]
        rfl

/-- What is left of a number for the first of its `k + 1` bytes. -/
def topDigit : Nat → Nat → Nat
  | 0, n => n
  | k + 1, n => topDigit k (n / 64)

theorem head_sextets (lead k n : Nat) :
    ∃ tail, sextets lead k n = .ofNat (lead + topDigit k n) :: tail := by
  induction k generalizing n with
  | zero => exact ⟨[], rfl⟩
  | succ k ih =>
    obtain ⟨tail, htail⟩ := ih (n / 64)
    refine ⟨tail ++ [.ofNat (0x80 + n % 64)], ?_⟩
    rw [sextets, htail, topDigit, List.cons_append]

theorem ofNat_lt_ofNat {m n : Nat} (h : m < n) (hn : n < 256) :
    UInt8.ofNat m < UInt8.ofNat n := by
  rw [UInt8.lt_iff_toNat_lt, Utf8.toNat_ofNat_of_lt (by omega), Utf8.toNat_ofNat_of_lt hn]
  exact h

/-- Numbers in equally many bytes are ordered like their bytes. -/
theorem differsBelow_sextets {lead k m n : Nat} (h : m < n) (hn : lead + topDigit k n < 256) :
    DiffersBelow (· < ·) (sextets lead k m) (sextets lead k n) := by
  induction k generalizing m n with
  | zero => exact ⟨[], _, _, [], [], rfl, rfl, ofNat_lt_ofNat (Nat.add_lt_add_left h lead) hn⟩
  | succ k ih =>
    rw [sextets, sextets]
    rcases Nat.lt_or_eq_of_le (Nat.div_le_div_right (c := 64) (Nat.le_of_lt h)) with hlt | heq
    · exact (ih hlt hn).append _ _
    · -- All bytes but the last are the same.
      rw [heq]
      exact ⟨_, _, _, [], [], rfl, rfl, ofNat_lt_ofNat (by omega) (by omega)⟩

/-- The leading bytes of characters with more bytes are greater. -/
theorem HasWidth.lead_lt_or_eq {m n lead lead' k k' : Nat} (hm : HasWidth m lead k)
    (hn : HasWidth n lead' k') (h : m < n) :
    lead + topDigit k m < lead' + topDigit k' n ∨ lead = lead' ∧ k = k' := by
  cases hm <;> cases hn <;> simp only [topDigit, and_self, or_true] <;> omega

theorem HasWidth.lead_lt {n lead k : Nat} (hn : HasWidth n lead k) :
    lead + topDigit k n < 256 := by
  cases hn <;> simp only [topDigit] <;> omega

/-- Of two characters, the one with the lower code point has the lower byte where they differ. -/
theorem differsBelow_encodeChar {c d : Char} (h : c.toNat < d.toNat) :
    DiffersBelow (· < ·) (encodeChar c) (encodeChar d) := by
  obtain ⟨lead, k, hc, hbytes⟩ := exists_hasWidth c
  obtain ⟨lead', k', hd, hbytes'⟩ := exists_hasWidth d
  rw [hbytes, hbytes']
  rcases hc.lead_lt_or_eq hd h with hlt | ⟨rfl, rfl⟩
  · obtain ⟨tail, htail⟩ := head_sextets lead k c.toNat
    obtain ⟨tail', htail'⟩ := head_sextets lead' k' d.toNat
    rw [htail, htail']
    exact ⟨[], _, _, tail, tail', rfl, rfl, ofNat_lt_ofNat hlt hd.lead_lt⟩
  · exact differsBelow_sextets h hd.lead_lt

/-! ## Texts -/

def codePoints (text : String) : List Nat := text.toList.map Char.toNat

/-- Sequences of code points compare at their first difference; what goes on is the greater. -/
def compareCodePoints (a b : List Nat) : Ordering :=
  a.compareLex (fun x y => compareOfLessAndEq x y) b

instance lawfulEqCmp_byte : Std.LawfulEqCmp fun x y : UInt8 => compareOfLessAndEq x y :=
  inferInstanceAs (Std.LawfulEqCmp (compare : UInt8 → UInt8 → Ordering))

instance lawfulEqCmp_codePoint : Std.LawfulEqCmp fun x y : Nat => compareOfLessAndEq x y :=
  inferInstanceAs (Std.LawfulEqCmp (compare : Nat → Nat → Ordering))

/-- Texts are ordered by their first characters, if these differ, whatever follows them. -/
theorem compare_encodeChar_of_lt {c d : Char} (h : c.toNat < d.toNat) (xs ys : Bytes) :
    Bytes.compare (encodeChar c ++ xs) (encodeChar d ++ ys) = .lt :=
  (compareLex_eq_lt_iff fun _ _ => compareOfLessAndEq_eq_lt).2
    (.inr ((differsBelow_encodeChar h).append xs ys))

/-- A character in front is compared by its code point. -/
theorem compare_encodeChar (c d : Char) (xs ys : Bytes) :
    Bytes.compare (encodeChar c ++ xs) (encodeChar d ++ ys)
      = (compareOfLessAndEq c.toNat d.toNat).then (Bytes.compare xs ys) := by
  rcases Nat.lt_trichotomy c.toNat d.toNat with hlt | heq | hgt
  · rw [compare_encodeChar_of_lt hlt, compareOfLessAndEq_eq_lt.2 hlt]
    rfl
  · rw [Char.toNat_inj.1 heq, Bytes.compare, compareLex_append_left, compareOfLessAndEq,
      if_neg (Nat.lt_irrefl _), if_pos rfl]
    rfl
  · have hbytes : Bytes.compare (encodeChar c ++ xs) (encodeChar d ++ ys) = .gt :=
      Std.OrientedCmp.gt_of_lt (compare_encodeChar_of_lt hgt ys xs)
    rw [hbytes, compareOfLessAndEq, if_neg (Nat.lt_asymm hgt), if_neg (Nat.ne_of_gt hgt)]
    rfl

theorem compare_flatMap_encodeChar (cs ds : List Char) :
    Bytes.compare (cs.flatMap encodeChar) (ds.flatMap encodeChar)
      = compareCodePoints (cs.map Char.toNat) (ds.map Char.toNat) := by
  induction cs generalizing ds with
  | nil =>
    cases ds with
    | nil => rfl
    | cons d ds =>
      obtain ⟨b, tail, hd⟩ := Utf8.exists_encodeChar_eq_cons d
      rw [List.flatMap_cons, hd]
      rfl
  | cons c cs ih =>
    cases ds with
    | nil =>
      obtain ⟨b, tail, hc⟩ := Utf8.exists_encodeChar_eq_cons c
      rw [List.flatMap_cons, hc]
      rfl
    | cons d ds =>
      rw [List.flatMap_cons, List.flatMap_cons, compare_encodeChar, ih, List.map_cons,
        List.map_cons, compareCodePoints, compareCodePoints, List.compareLex_cons_cons]

/-- The bytes of texts compare as their code points do. -/
theorem compare_encode (s t : String) :
    Bytes.compare (encode s) (encode t) = compareCodePoints (codePoints s) (codePoints t) :=
  compare_flatMap_encodeChar s.toList t.toList

/-- Terms compare as the code points of their canonical forms: a form comes before those that go on
from it, and before those with a higher code point in the first place where they differ. -/
theorem Term.compare_eq_compareCodePoints (a b : Term) :
    a.compare b = compareCodePoints (codePoints a.canonical) (codePoints b.canonical)
      ∧ (a.compare b = .lt ↔
        (∃ c rest, codePoints b.canonical = codePoints a.canonical ++ c :: rest)
          ∨ DiffersBelow (· < ·) (codePoints a.canonical) (codePoints b.canonical)) := by
  have h : a.compare b = compareCodePoints (codePoints a.canonical) (codePoints b.canonical) :=
    compare_encode a.canonical b.canonical
  refine ⟨h, ?_⟩
  rw [h]
  exact compareLex_eq_lt_iff fun _ _ => compareOfLessAndEq_eq_lt

/-- What lies past U+FFFF comes after U+FFFD. The units of UTF-16 would put it before. -/
example : (Term.iri "s:\uFFFD").compare (.iri "s:😀") = .lt := by decide

end TidyTrig
