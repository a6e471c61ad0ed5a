import TidyTrig.Proofs.Trig.Reading

/-!
# The message of the late check

Bytes that are no text are reported in words that no parser uses, whatever a document has it quote
(`message_ne_of_isYielded`), and that no warning of a prefix uses. A message quotes between words of
its own, so it is told apart by how it opens (`append_ne`), or by how it closes where the quote comes
first.
-/

namespace TidyTrig

/-! ## Replacing a word -/

section

variable {word replacement : List Char}

theorem dropWord?_eq_some_iff {text after : List Char} :
    replaceWord.dropWord? word text = some after ↔ text = word ++ after := by
  fun_induction replaceWord.dropWord? word text with
  | case1 rest => simp
  | case2 w word => simp
  | case3 w word rest ih => simpa using ih
  | case4 w word c rest hne => simp [Ne.symm hne]

/-- A text that the word does not begin keeps its first character. -/
theorem head?_replaceWord {text : List Char} (h : ¬ word <+: text) :
    (replaceWord word replacement text).head? = text.head? := by
  cases text with
  | nil => rw [replaceWord]
  | cons c rest =>
    have hnone : replaceWord.dropWord? word (c :: rest) = none := by
      rw [Option.eq_none_iff_forall_ne_some]
      intro after hafter
      exact h ⟨after, (dropWord?_eq_some_iff.1 hafter).symm⟩
    rw [replaceWord, hnone]
    rfl

/-- A text without the first character of the word stays as it is. -/
theorem replaceWord_of_not_mem {w : Char} {text : List Char} (h : w ∉ text) :
    replaceWord (w :: word) replacement text = text := by
  induction text with
  | nil => rw [replaceWord]
  | cons c rest ih =>
    rw [List.mem_cons, not_or] at h
    rw [replaceWord, replaceWord.dropWord?, if_neg h.1, ih h.2]

/-- A word that begins a text is replaced, and then what follows it. -/
theorem replaceWord_append {w : Char} (text : List Char) :
    replaceWord (w :: word) replacement (w :: word ++ text)
      = replacement ++ replaceWord (w :: word) replacement text := by
  have hsome : replaceWord.dropWord? (w :: word) (w :: (word ++ text)) = some text :=
    dropWord?_eq_some_iff.2 rfl
  rw [List.cons_append, replaceWord, hsome]
  dsimp only
  rw [if_pos (by simp only [List.length_cons, List.length_append]; omega)]

end

namespace Trig

/-! ## How messages open -/

/-- What the document is told of bytes that are no text. -/
def undecodableMessage : String := "Invalid UTF-8 byte sequence"

/-- A text that opens otherwise is another. -/
theorem append_ne {opening rest text : String}
    (h : opening.toList.isPrefixOf text.toList = false) : opening ++ rest ≠ text := by
  rintro rfl
  rw [String.toList_append, List.isPrefixOf_iff_prefix.2 (List.prefix_append _ _)] at h
  cases h

/-- A text that closes otherwise is another. -/
theorem append_ne_of_closing {closing rest text : String}
    (h : closing.toList.isSuffixOf text.toList = false) : rest ++ closing ≠ text := by
  rintro rfl
  rw [String.toList_append, List.isSuffixOf_iff_suffix.2 (List.suffix_append _ _)] at h
  cases h

theorem message_ne_of_iriError (error : IriError) : error.message ≠ undecodableMessage := by
  cases error with
  | noScheme | hostAddress | doubleSlashPath => decide +kernel
  | hostCharacter | portCharacter | codePoint | percentEncoding =>
    unfold IriError.message
    simp only [String.append_assoc]
    exact append_ne (by decide +kernel)

theorem message_ne_of_tokenFault (fault : Token.Fault) : fault.message ≠ undecodableMessage := by
  cases fault with
  | iri error => exact message_ne_of_iriError error
  | language fault => cases fault <;> decide +kernel
  | unexpectedEnd | character | lineEndInString | languageStart | emptyExponent | emptyDouble
  | emptyInteger | emptyLabel | emptyVariable => decide +kernel
  | unexpectedCharacter | unexpectedByte | text | escape | escapeDigits | escapeValue | nameStart
  | nameEnd | namePercent | nameEscape =>
    unfold Token.Fault.message
    simp only [String.append_assoc]
    exact append_ne (by decide +kernel)

/-! ## Messages about a token -/

/-- The wording starts with the token and closes otherwise, or else it opens otherwise. -/
theorem template_cases (fault : SyntaxFault) :
    (∃ closing : String, fault.template.toList = "TOKEN".toList ++ closing.toList
      ∧ 'T' ∉ closing.toList ∧ closing.toList.isSuffixOf undecodableMessage.toList = false)
    ∨ ∃ opening rest : List Char, fault.template.toList = opening ++ rest
      ∧ "TOKEN".toList.length ≤ opening.length ∧ "TOKEN".toList.isPrefixOf opening = false
      ∧ opening.head? ≠ undecodableMessage.toList.head? := by
  cases fault with
  | notSubjectOrGraph => exact .inl ⟨" is not a valid subject or graph name", by decide +kernel⟩
  | notSubject => exact .inl ⟨" is not a valid RDF subject", by decide +kernel⟩
  | notGraphName => exact .inl ⟨" is not a valid graph name", by decide +kernel⟩
  | notPredicate => exact .inl ⟨" is not a valid predicate", by decide +kernel⟩
  | notObject => exact .inl ⟨" is not a valid RDF object", by decide +kernel⟩
  | undeclaredName | invalidName =>
    unfold SyntaxFault.template
    simp only [String.append_assoc]
    exact .inr ⟨_, _, String.toList_append, by decide +kernel⟩
  | _ => exact .inr ⟨_, [], (List.append_nil _).symm, by decide +kernel⟩

theorem message_ne_of_syntaxFault (fault : SyntaxFault) (token : String) :
    fault.message token ≠ undecodableMessage := by
  unfold SyntaxFault.message
  rcases template_cases fault with ⟨closing, htemplate, hfree, hcloses⟩
    | ⟨opening, rest, htemplate, hlength, hopens, hhead⟩
  · rw [htemplate]
    have hmessage : replaceWord "TOKEN".toList token.toList ("TOKEN".toList ++ closing.toList)
        = token.toList ++ closing.toList := by
      rw [show "TOKEN".toList = ['T', 'O', 'K', 'E', 'N'] from rfl, replaceWord_append,
        replaceWord_of_not_mem hfree]
    rw [hmessage, String.ofList_append, String.ofList_toList, String.ofList_toList]
    exact append_ne_of_closing hcloses
  · have hkeeps : ¬ "TOKEN".toList <+: opening ++ rest := by
      intro hword
      have := List.prefix_of_prefix_length_le hword (List.prefix_append _ _) hlength
      rw [← List.isPrefixOf_iff_prefix, hopens] at this
      cases this
    have hne : opening ≠ [] := by
      rintro rfl
      cases hlength
    intro hmessage
    apply hhead
    rw [← hmessage, String.toList_ofList, htemplate, head?_replaceWord hkeeps,
      List.head?_append, Option.or_of_isSome (by rw [List.isSome_head?]; simpa using hne)]

/-- No parser words a problem like this. -/
theorem message_ne_of_isYielded {p : Problem} (h : Parser.IsYielded (.problem p)) :
    p.message ≠ undecodableMessage := by
  cases h with
  | ofToken cursor fault => exact message_ne_of_tokenFault fault
  | ofMeaning cursor fault token => exact message_ne_of_syntaxFault fault token

/-- No warning of a prefix is worded like this. -/
theorem message_ne_of_space (space : Namespace) :
    "Unused prefix '" ++ space.name ++ ":'" ≠ undecodableMessage := by
  rw [String.append_assoc]
  exact append_ne (by decide +kernel)

end Trig
end TidyTrig
