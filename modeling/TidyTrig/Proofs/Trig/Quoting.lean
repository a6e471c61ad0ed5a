import TidyTrig.Proofs.Trig.Stepping

/-!
# Strings in quotes end themselves

A string in quotes has no control characters, and in front of anything but a quote both of its
readers find where it ends: the scan for directives, which steps over it, and the parser, which gets
the string back (`readers_quoted`). They differ at the end of a document alone. Two quotes may open
a long string, so the parser waits for a byte after them, and an empty string that nothing follows
is no token (`readers_quoted_empty`).
-/

namespace TidyTrig.Trig

open Utf8

/-! ## Characters -/

/-- The digits of a control character are no control characters. -/
theorem isControl_digits : ∀ n < 0xA0,
    (Hex.pad 4 (Hex.upper n)).all (fun d => !isControl d) := by
  decide +kernel

/-- However a character is spelled in a string, no control character is in its place. -/
theorem isControl_of_mem_escaped {c d : Char} (h : d ∈ escaped c) : isControl d = false := by
  have hall : (escaped c).all fun d => !isControl d := by
    unfold escaped
    -- The five characters with an escape of their own come first.
    iterate 5
      split
      · rfl
    split
    · next hcontrol =>
      rw [List.all_cons, List.all_cons, isControl_digits c.toNat (lt_of_isControl hcontrol)]
      rfl
    · next hplain => simpa using hplain
  simpa using List.all_eq_true.1 hall d h

theorem isControl_of_mem_quoted {text : String} {d : Char} (h : d ∈ (quoted text).toList) :
    isControl d = false := by
  have hquote : isControl '\x22' = false := by decide
  rw [quoted, String.toList_ofList, List.mem_append, List.mem_cons, List.mem_flatMap] at h
  rcases h with (rfl | ⟨c, -, hd⟩) | hlast
  · exact hquote
  · exact isControl_of_mem_escaped hd
  · rw [List.mem_singleton.1 hlast]
    exact hquote

/-- A string in quotes stands on one line. -/
theorem isLineEnd_of_mem_quoted {text : String} {b : UInt8} (h : b ∈ encode (quoted text)) :
    isLineEnd b = false := by
  have hne : ∀ d : Char, d.toNat < 0x80 → isControl d = true → b ≠ byte d := by
    rintro d hd hcontrol rfl
    rw [isControl_of_mem_quoted ((byte_mem_encode_iff hd).1 h)] at hcontrol
    cases hcontrol
  simp only [isLineEnd, Bool.or_eq_false_iff, decide_eq_false_iff_not]
  exact ⟨hne '\n' (by decide) (by decide), hne '\r' (by decide) (by decide)⟩

/-! ## The end of the string -/

section

variable {text : String} {rest : Bytes}

/-- What follows the opening quote is read up to the closing one, if there is a character between
them or something behind them. -/
theorem scanString_of_encode_quoted {tail : Bytes}
    (htail : encode (quoted text) = byte '\x22' :: tail) (hrest : rest.head? ≠ some (byte '\x22'))
    (hsome : ¬ (text = "" ∧ rest = [])) :
    scanString (byte '\x22') (tail ++ rest)
      = .found (.string text) (encode (quoted text)).length := by
  rw [encode_quoted] at htail ⊢
  rw [← (List.cons.inj htail).2, List.append_assoc, List.singleton_append, List.length_cons,
    List.length_append]
  cases rest with
  | nil =>
    have hne : text.toList ≠ [] := by simpa using hsome
    obtain ⟨c, cs, hchars⟩ := List.exists_cons_of_ne_nil hne
    rw [hchars, scanString_quoted_cons, ← hchars, String.ofList_toList]
    rfl
  | cons b rest =>
    have hb : b ≠ byte '\x22' := by simpa using hrest
    rw [scanString_quoted text.toList hb, String.ofList_toList]
    rfl

/-- The scan for directives steps over the string. -/
theorem stringLength_quoted (hrest : rest.head? ≠ some (byte '\x22')) :
    Directive.stringLength (encode (quoted text) ++ rest) = (encode (quoted text)).length := by
  by_cases hsome : text = "" ∧ rest = []
  · obtain ⟨rfl, rfl⟩ := hsome
    decide
  · have htail := encode_quoted text
    have hscan := scanString_of_encode_quoted htail hrest hsome
    rw [htail] at hscan ⊢
    exact Directive.stringLength_of_scanString (.inl rfl) hscan

/-- The parser takes the string, and goes on with what follows it. -/
theorem next?_quoted (hrest : rest.head? ≠ some (byte '\x22')) (hsome : ¬ (text = "" ∧ rest = []))
    (labels : Nat → String) (cursor : Cursor) (r : Recognition) :
    Parser.next? labels true ⟨encode (quoted text) ++ rest, cursor, r⟩
      = some (Parser.report cursor (encode (quoted text)) (r.accept labels (.string text)),
        ⟨rest, cursor.through (encode (quoted text)),
          (r.accept labels (.string text)).cleared⟩) := by
  obtain ⟨tail, htail⟩ : ∃ tail, encode (quoted text) = byte '\x22' :: tail :=
    ⟨_, encode_quoted text⟩
  have hscan := scanString_of_encode_quoted htail hrest hsome
  rw [← scan_quote r.base true] at hscan
  rw [htail] at hscan ⊢
  have hskip := skipBlank_of_opensToken (b := byte '\x22') (by decide) true cursor (tail ++ rest)
  rw [List.cons_append, Parser.next?_of_found labels hskip hscan, ← List.cons_append,
    List.take_left, List.length_cons, Nat.add_sub_cancel, List.drop_left]

/-- Two quotes at the end of a document are no token, since a third could follow. -/
theorem next?_quotes (labels : Nat → String) (cursor : Cursor) (r : Recognition) :
    Parser.next? labels true ⟨encode (quoted ""), cursor, r⟩
      = some ([Parser.problemAt cursor Token.Fault.unexpectedEnd.message],
        ⟨[], cursor.through (encode (quoted "")), r.abandon⟩) := by
  have hword : encode (quoted "") = [byte '\x22', byte '\x22'] := rfl
  unfold Parser.next?
  dsimp only
  rw [hword, skipBlank_of_opensToken (by decide)]
  dsimp only
  rw [Parser.readToken, scan_quote, scanString, if_pos rfl]
  rfl

end

/-- A string in quotes has no control characters and stands on one line. In front of anything but a
quote, the scan for directives steps over it, and the parser takes it for the string that it is.
Only an empty string that nothing follows is no token of the parser. -/
theorem readers_quoted (text : String) (rest : Bytes) (hrest : rest.head? ≠ some (byte '\x22')) :
    (∀ c ∈ (quoted text).toList, isControl c = false)
      ∧ (∀ b ∈ encode (quoted text), isLineEnd b = false)
      ∧ Directive.stringLength (encode (quoted text) ++ rest) = (encode (quoted text)).length
      ∧ ∀ (labels : Nat → String) (cursor : Cursor) (r : Recognition),
        Parser.next? labels true ⟨encode (quoted text) ++ rest, cursor, r⟩ = some (
          if text = "" ∧ rest = [] then
            ([Parser.problemAt cursor Token.Fault.unexpectedEnd.message],
              ⟨[], cursor.through (encode (quoted text)), r.abandon⟩)
          else
            (Parser.report cursor (encode (quoted text)) (r.accept labels (.string text)),
              ⟨rest, cursor.through (encode (quoted text)),
                (r.accept labels (.string text)).cleared⟩)) := by
  refine ⟨fun _ => isControl_of_mem_quoted, fun _ => isLineEnd_of_mem_quoted,
    stringLength_quoted hrest, ?_⟩
  intro labels cursor r
  split
  · next hnone =>
    obtain ⟨rfl, rfl⟩ := hnone
    rw [List.append_nil]
    exact next?_quotes labels cursor r
  · next hsome => exact next?_quoted hrest hsome labels cursor r

/-- A quote, a backslash, a line end, a control character and characters of two and four bytes, in
front of a tag. -/
theorem readers_quoted_tagged :
    (encode "@en").head? ≠ some (byte '\x22')
      ∧ quoted "\"\\\n\x85é😀" = "\"\\\"\\\\\\n\\u0085é😀\""
      ∧ (∀ c ∈ (quoted "\"\\\n\x85é😀").toList, isControl c = false)
      ∧ Directive.stringLength (encode (quoted "\"\\\n\x85é😀") ++ encode "@en") = 20
      ∧ (Parser.next? (fun _ => "") true ⟨encode (quoted "\"\\\n\x85é😀") ++ encode "@en", .start,
          { Recognition.start none with goals := [.object] }⟩).map
            (fun step => (step.2.unread, step.2.recognition.goals))
          = some (encode "@en", [.literalTag "\"\\\n\x85é😀"]) := by
  have hrest : (encode "@en").head? ≠ some (byte '\x22') := by decide
  obtain ⟨hcontrol, -, hlength, hnext⟩ := readers_quoted "\"\\\n\x85é😀" (encode "@en") hrest
  refine ⟨hrest, by decide, hcontrol, ?_, ?_⟩
  · rw [hlength]
    decide
  · rw [hnext, if_neg (by decide)]
    rfl

/-- Two quotes at the end of a document: the scan for directives steps over them, but the parser
finds no string, and its error is all that it has to say. -/
theorem readers_quoted_empty :
    ([] : Bytes).head? ≠ some (byte '\x22')
      ∧ encode (quoted "") = [byte '\x22', byte '\x22']
      ∧ Directive.stringLength [byte '\x22', byte '\x22'] = 2
      ∧ (∀ value size, scan none true (byte '\x22') [byte '\x22'] ≠ .found (.string value) size)
      ∧ (Parser.next? (fun _ => "") true ⟨[byte '\x22', byte '\x22'], .start, .start none⟩).map
          Prod.fst
        = some [.problem ⟨.error, "Unexpected end of file", 1, 0⟩] := by
  have hwait : scan none true (byte '\x22') [byte '\x22'] = .wait := by rw [scan_quote]; rfl
  refine ⟨nofun, rfl, by decide, ?_, ?_⟩
  · intro value size
    rw [hwait]
    exact nofun
  · have hcolumn : Cursor.start.column = 0 := by
      rw [Cursor.column, Cursor.start, List.reverse_nil, column, readings]
      rfl
    have hnext := next?_quotes (fun _ => "") .start (.start none)
    rw [show encode (quoted "") = [byte '\x22', byte '\x22'] from rfl] at hnext
    rw [hnext, Option.map_some, Parser.problemAt, hcolumn]
    rfl

end TidyTrig.Trig
