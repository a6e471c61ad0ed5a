import Mathlib.Data.List.TakeWhile
import TidyTrig.Proofs.Text.Utf8

/-!
# The text in front of undecodable bytes

Bytes that are no text have a longest text in front, and the first fault lies right behind it
(`exists_of_fault?`, `validUpTo_of_fault?`). Characters are read one way only, so no other way of
dividing the bytes gets further. The last line of that text is what stands behind the last line feed
of its bytes (`takeWhile_last_line`).
-/

namespace TidyTrig.Utf8

/-- The longest text in front of some bytes takes this many of them. -/
structure ValidUpTo (bytes : Bytes) (n : Nat) : Prop where
  le_length : n ≤ bytes.length
  isText : ∃ text, bytes.take n = encode text
  longest : ∀ m, n < m → m ≤ bytes.length → ∀ text, bytes.take m ≠ encode text

theorem ValidUpTo.eq {bytes : Bytes} {m n : Nat} (hm : ValidUpTo bytes m)
    (hn : ValidUpTo bytes n) : m = n := by
  obtain ⟨text, htext⟩ := hm.isText
  obtain ⟨text', htext'⟩ := hn.isText
  rcases Nat.lt_trichotomy m n with hlt | heq | hlt
  · exact absurd htext' (hm.longest n hlt hn.le_length text')
  · exact heq
  · exact absurd htext (hn.longest m hlt hm.le_length text)

/-- What lies behind a fault is no character, and there is something. -/
theorem exists_of_fault? {bytes : Bytes} {fault : Fault} (h : fault? bytes = some fault) :
    ∃ (cs : List Char) (rest : Bytes), bytes = cs.flatMap encodeChar ++ rest
      ∧ (cs.flatMap encodeChar).length = fault.offset
      ∧ rest ≠ [] ∧ ∀ c width, decodeNext rest ≠ .char c width := by
  fun_induction fault? bytes generalizing fault with
  | case1 => cases h
  | case2 b rest c width hnext ih =>
    obtain ⟨fault, hfault, rfl⟩ := Option.map_eq_some_iff.1 h
    obtain ⟨cs, later, hbytes, hlength, hlater⟩ := ih hfault
    have htake := take_of_decodeNext hnext
    have hwidth := width_of_decodeNext hnext
    have hdrop : rest.drop (width - 1) = (b :: rest).drop width := by
      rw [← List.drop_succ_cons (a := b), Nat.sub_add_cancel hwidth.1]
    refine ⟨c :: cs, later, ?_, ?_, hlater⟩
    · rw [List.flatMap_cons, List.append_assoc, ← hbytes, hdrop, ← htake, List.take_append_drop]
    · have hchar : (encodeChar c).length = width := by
        rw [← htake, List.length_take, List.length_cons]
        omega
      rw [List.flatMap_cons, List.length_append, hlength, hchar, Fault.shift, Nat.add_comm]
  | case3 b rest index hnext =>
    cases h
    refine ⟨[], b :: rest, rfl, rfl, List.cons_ne_nil _ _, ?_⟩
    rw [hnext]
    intro _ _ hchar
    cases hchar
  | case4 b rest hnext =>
    cases h
    refine ⟨[], b :: rest, rfl, rfl, List.cons_ne_nil _ _, ?_⟩
    rw [hnext]
    intro _ _ hchar
    cases hchar

/-- Where characters end, no other characters in front of the same bytes get further. -/
theorem length_le_of_append_eq {cs cs' : List Char} {rest rest' : Bytes}
    (hrest : ∀ c width, decodeNext rest ≠ .char c width)
    (h : cs.flatMap encodeChar ++ rest = cs'.flatMap encodeChar ++ rest') :
    (cs'.flatMap encodeChar).length ≤ (cs.flatMap encodeChar).length := by
  induction cs generalizing cs' with
  | nil =>
    cases cs' with
    | nil => exact Nat.le_refl _
    | cons c cs' =>
      rw [List.flatMap_nil, List.nil_append, List.flatMap_cons, List.append_assoc] at h
      rw [h] at hrest
      exact absurd (decodeNext_encodeChar c _) (hrest _ _)
  | cons c cs ih =>
    cases cs' with
    | nil => exact Nat.zero_le _
    | cons c' cs' =>
      rw [List.flatMap_cons, List.flatMap_cons, List.append_assoc, List.append_assoc] at h
      have hnext := decodeNext_encodeChar c (cs.flatMap encodeChar ++ rest)
      rw [h, decodeNext_encodeChar] at hnext
      cases hnext
      have := ih (List.append_cancel_left h)
      rw [List.flatMap_cons, List.flatMap_cons, List.length_append, List.length_append]
      omega

/-- The first fault lies behind the longest text in front. -/
theorem validUpTo_of_fault? {bytes : Bytes} {fault : Fault} (h : fault? bytes = some fault) :
    ValidUpTo bytes fault.offset := by
  obtain ⟨cs, rest, rfl, hlength, -, hrest⟩ := exists_of_fault? h
  refine ⟨offset_le_of_fault? h, ⟨.ofList cs, ?_⟩, ?_⟩
  · rw [encode_ofList, ← hlength, List.take_left]
  · intro m hlt hle text htext
    have hsplit := List.take_append_drop m (cs.flatMap encodeChar ++ rest)
    rw [htext] at hsplit
    have := length_le_of_append_eq hrest hsplit.symm
    have hm : (encode text).length = m := by
      rw [← htext, List.length_take]
      omega
    rw [← encode, hm] at this
    omega

/-! ## The last line of a text -/

/-- A text is divided behind its last line feed. -/
theorem exists_last_line (cs : List Char) :
    ∃ before line, cs = before ++ line ∧ (before = [] ∨ before.getLast? = some '\n')
      ∧ '\n' ∉ line := by
  induction cs with
  | nil => exact ⟨[], [], rfl, .inl rfl, List.not_mem_nil⟩
  | cons c cs ih =>
    obtain ⟨before, line, rfl, hbefore, hline⟩ := ih
    by_cases hfirst : before = [] ∧ c ≠ '\n'
    · obtain ⟨rfl, hc⟩ := hfirst
      exact ⟨[], c :: line, rfl, .inl rfl, by simp [hline, hc.symm]⟩
    · refine ⟨c :: before, line, rfl, .inr ?_, hline⟩
      cases before with
      | nil => simpa using hfirst
      | cons b before => simpa using hbefore

/-- What stands behind the last line feed is the last line. -/
theorem takeWhile_last_line {before line : List Char}
    (hbefore : before = [] ∨ before.getLast? = some '\n') (hline : '\n' ∉ line) :
    (((before ++ line).flatMap encodeChar).reverse.takeWhile (· ≠ byte '\n')).reverse
      = line.flatMap encodeChar := by
  have hinside : ∀ b ∈ (line.flatMap encodeChar).reverse, decide (b ≠ byte '\n') = true := by
    intro b hb
    rw [List.mem_reverse, List.mem_flatMap] at hb
    obtain ⟨c, hc, hb⟩ := hb
    rw [decide_eq_true_iff]
    rintro rfl
    rw [byte_mem_encodeChar_iff (by decide)] at hb
    exact hline (hb ▸ hc)
  have hend : (before.flatMap encodeChar).reverse.takeWhile (· ≠ byte '\n') = [] := by
    rcases hbefore with rfl | hlast
    · rfl
    · obtain ⟨front, rfl⟩ := List.getLast?_eq_some_iff.1 hlast
      rw [List.flatMap_append, List.reverse_append]
      rfl
  rw [List.flatMap_append, List.reverse_append, List.takeWhile_append_of_pos hinside, hend,
    List.append_nil, List.reverse_reverse]

end TidyTrig.Utf8
