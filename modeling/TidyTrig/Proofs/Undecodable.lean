import TidyTrig.Proofs.Sink.Calls
import TidyTrig.Proofs.Text.Front
import TidyTrig.Proofs.Trig.Messages
import TidyTrig.Proofs.Trig.Source

/-!
# Bytes that are no text

A document whose bytes are no text is malformed wherever the bad bytes stand (`yields_undecodable`).
The parser notices some of them and passes over others, in comments for one. So when it is done, the
line of the first bad byte is looked at: if the parser reported no error on it, it gets one. The
problems of a document are therefore those of the parser, then that one if it is due, and warnings
(`problemsOf_readAll_eq_append`).
-/

namespace TidyTrig

open Trig Utf8

variable (labels : Nat → String)

theorem message_ne_of_mem_parserErrors {base : Option Iri} {bytes : Bytes} {p : Problem}
    (h : p ∈ parserErrors labels base bytes) : p.message ≠ undecodableMessage := by
  obtain ⟨e, he, hproblem⟩ := List.mem_filterMap.1 h
  have hyielded := Parser.isYielded_close labels _ e he
  cases e with
  | problem q =>
    cases hproblem
    exact message_ne_of_isYielded hyielded
  | _ => cases hproblem

/-- The bytes in front of an offset on its line, where a text ends at the offset. -/
theorem decode?_lineFront {bytes : Bytes} {offset : Nat} {before line : List Char}
    (htext : bytes.take offset = (before ++ line).flatMap encodeChar)
    (hbefore : before = [] ∨ before.getLast? = some '\n') (hline : '\n' ∉ line) :
    decode? (lineFront bytes offset) = some (.ofList line) := by
  rw [lineFront, htext, takeWhile_last_line hbefore hline, ← encode_ofList, decode?_encode]

/-! ## Bytes that are no text -/

section

variable (base : Option Iri) (warnsUnused : Bool) {bytes : Bytes}

/-- Of a text the parser finds all errors. -/
theorem errors_encode (text : String) :
    (problemsOf (readAll labels base warnsUnused (encode text))).filter Problem.isError
      = parserErrors labels base (encode text) := by
  obtain ⟨warnings, hproblems, hwarnings, -⟩ :=
    problemsOf_readAll_eq_append labels base warnsUnused (encode text)
  have herrors : (parserErrors labels base (encode text)).filter Problem.isError
      = parserErrors labels base (encode text) := by
    rw [List.filter_eq_self]
    intro p hp
    rw [Problem.isError, kind_of_mem_parserErrors labels hp]
    rfl
  have hnone : warnings.filter Problem.isError = [] := by
    rw [List.filter_eq_nil_iff]
    intro p hp
    rw [Problem.isError, (hwarnings p hp).1]
    decide
  rw [hproblems, List.filter_append, List.filter_append, herrors, hnone, lateErrors, fault?_encode]
  simp

variable {fault : Fault} (hfault : fault? bytes = some fault)
include hfault

/-- Some error stands on the line of the first fault. -/
theorem exists_error_on_line :
    ∃ p ∈ problemsOf (readAll labels base warnsUnused bytes),
      p.kind = .error ∧ p.line = lineOf bytes fault.offset := by
  obtain ⟨warnings, hproblems, -⟩ := problemsOf_readAll_eq_append labels base warnsUnused bytes
  rw [hproblems, lateErrors, hfault]
  dsimp only
  split
  · next hline =>
    obtain ⟨p, hp, hline⟩ := List.mem_map.1 hline
    exact ⟨p, by simp [hp], kind_of_mem_parserErrors labels hp, hline⟩
  · exact ⟨undecodableAt bytes fault.offset, by simp, rfl, rfl⟩

/-- A line without an error of the parser gets one that says so, and no other line does. -/
theorem filter_message_eq
    (hline : ∀ p ∈ parserErrors labels base bytes, p.line ≠ lineOf bytes fault.offset) :
    (problemsOf (readAll labels base warnsUnused bytes)).filter (·.message = undecodableMessage)
      = [undecodableAt bytes fault.offset] := by
  obtain ⟨warnings, hproblems, hwarnings, -⟩ :=
    problemsOf_readAll_eq_append labels base warnsUnused bytes
  have hparser : (parserErrors labels base bytes).filter (·.message = undecodableMessage) = [] := by
    rw [List.filter_eq_nil_iff]
    intro p hp
    simpa using message_ne_of_mem_parserErrors labels hp
  have hwarned : warnings.filter (·.message = undecodableMessage) = [] := by
    rw [List.filter_eq_nil_iff]
    intro p hp
    obtain ⟨-, space, hmessage⟩ := (hwarnings p hp).2
    simpa [hmessage] using message_ne_of_space space
  have hfree : (lineOf bytes fault.offset : Int) ∉ (parserErrors labels base bytes).map
      Problem.line := by
    rintro hmem
    obtain ⟨p, hp, hsame⟩ := List.mem_map.1 hmem
    exact hline p hp hsame
  rw [hproblems, List.filter_append, List.filter_append, hparser, hwarned, lateErrors, hfault]
  dsimp only
  rw [if_neg hfree]
  rfl

/-- No sink is brought such a document: it is called with declarations, and then given up. -/
theorem canonicalize_of_fault? {σ : Type} [StatementSink σ] {s s' : σ}
    (hcalls : performAll (plannedCalls (readAll labels base warnsUnused bytes)) s = .ok () s') :
    canonicalize (readAll labels base warnsUnused bytes) s = .ok false s' := by
  obtain ⟨events, hevents, hopen⟩ := exists_of_readAll labels base warnsUnused bytes
  obtain ⟨p, hp, hkind, -⟩ := exists_error_on_line labels base warnsUnused hfault
  rw [hevents] at hp hcalls ⊢
  have hbroken : ¬∀ q ∈ problemsOf events, q.isError = false := by
    intro hall
    rw [problemsOf_append, List.mem_append] at hp
    have := hall p (hp.resolve_right nofun)
    rw [Problem.isError, hkind] at this
    cases this
  rw [canonicalize_eq_of_isError hopen hbroken]
  show EStateM.bind (performAll _) _ s = _
  rw [EStateM.bind, hcalls]
  rfl

/-- A limit that hides the error ends the reading. -/
theorem error_or_aborted (max : Nat) :
    (∃ p ∈ problemsOf (limitProblems max max (readAll labels base warnsUnused bytes)),
        p.kind = .error)
      ∨ ∃ message, (limitProblems max max (readAll labels base warnsUnused bytes)).getLast?
        = some (.aborted message) := by
  obtain ⟨p, hp, hkind, -⟩ := exists_error_on_line labels base warnsUnused hfault
  have hcuts := limitProblems_cuts (readAll labels base warnsUnused bytes) [] problemsOf_nil max max
  rw [List.append_nil] at hcuts
  split at hcuts
  · rw [hcuts]
    exact .inl ⟨p, hp, hkind⟩
  · obtain ⟨kept, q, rest, -, -, hlimit⟩ := hcuts
    rw [hlimit]
    exact .inr ⟨_, List.getLast?_concat⟩

end

/-- Bytes that are no text are never read without an error. One stands on the line on which the
longest text in front ends; if the parser reported none there, one that says so stands behind the
last character of that text, and it is the only one of its kind. What is in front of it on its line
can be decoded, so that its column is counted. No sink that takes the calls that it gets is brought
the document, and a limit that hides the error ends the reading. To a text this adds
nothing. -/
theorem yields_undecodable {o : Options} {base : Option Iri} (hbase : o.base? = .ok base)
    (bytes : Bytes) :
    ∃ events, Yields labels { o with maxProblems := none } bytes events
      ∧ (∀ text, bytes = encode text →
        (problemsOf events).filter Problem.isError = parserErrors labels base bytes)
      ∧ ((∀ text, bytes ≠ encode text) → ∃ u, ValidUpTo bytes u
        ∧ (∃ p ∈ problemsOf events, p.kind = .error
          ∧ p.line = ((bytes.take u).count (byte '\n') + 1 : Nat))
        ∧ (∃ before line : List Char, bytes.take u = (before ++ line).flatMap encodeChar
          ∧ (before = [] ∨ before.getLast? = some '\n') ∧ '\n' ∉ line
          ∧ decode? (lineFront bytes u) = some (.ofList line)
          ∧ ((∀ p ∈ parserErrors labels base bytes,
              p.line ≠ ((bytes.take u).count (byte '\n') + 1 : Nat)) →
            (problemsOf events).filter (·.message = "Invalid UTF-8 byte sequence")
              = [⟨.error, "Invalid UTF-8 byte sequence",
                  ((bytes.take u).count (byte '\n') + 1 : Nat), line.length⟩]))
        ∧ (∀ (σ : Type) [StatementSink σ] (s s' : σ),
          performAll (plannedCalls events) s = .ok () s' → canonicalize events s = .ok false s')
        ∧ ∀ max, ∃ limited, Yields labels { o with maxProblems := some max } bytes limited
          ∧ ((∃ p ∈ problemsOf limited, p.kind = .error)
            ∨ ∃ message, limited.getLast? = some (.aborted message))) := by
  refine ⟨_, yields_readAll labels hbase o.warnsUnused bytes, ?_, ?_⟩
  · rintro text rfl
    exact errors_encode labels base o.warnsUnused text
  · intro hbytes
    obtain ⟨fault, hfault⟩ : ∃ fault, fault? bytes = some fault := by
      cases hfault : fault? bytes with
      | none =>
        obtain ⟨text, htext⟩ := fault?_eq_none_iff.1 hfault
        exact absurd htext (hbytes text)
      | some fault => exact ⟨fault, rfl⟩
    -- The longest text in front ends at the fault, so its last line is what the column counts.
    have hvalid := validUpTo_of_fault? hfault
    obtain ⟨text, htext⟩ := hvalid.isText
    obtain ⟨before, line, hsplit, hbefore, hline⟩ := exists_last_line text.toList
    rw [encode, hsplit] at htext
    have hdecode := decode?_lineFront htext hbefore hline
    refine ⟨fault.offset, hvalid, exists_error_on_line labels base o.warnsUnused hfault,
      ⟨before, line, htext, hbefore, hline, hdecode, ?_⟩,
      fun σ _ s s' => canonicalize_of_fault? labels base o.warnsUnused hfault,
      fun max => ⟨_, yields_limitProblems labels hbase o.warnsUnused bytes max,
        error_or_aborted labels base o.warnsUnused hfault max⟩⟩
    intro hfree
    have hcolumn : columnOf bytes fault.offset = line.length := by
      rw [columnOf, hdecode]
      exact String.length_ofList
    have hfilter := filter_message_eq labels base o.warnsUnused hfault hfree
    rw [undecodableAt, hcolumn] at hfilter
    exact hfilter

/-- A comment that no parser looks into, behind a character of two bytes. -/
theorem yields_undecodable_comment :
    ∃ events, Yields (fun _ => "f") ⟨none, true, none⟩
        (encode "<http://e/a> a <http://e/b> .\n# é" ++ [0xFF, byte '\n']) events
      ∧ (problemsOf events).filter (·.message = "Invalid UTF-8 byte sequence")
        = [⟨.error, "Invalid UTF-8 byte sequence", 2, 3⟩] := by
  have hfault : fault? (encode "<http://e/a> a <http://e/b> .\n# é" ++ [0xFF, byte '\n'])
      = some ⟨34, some 1⟩ := by decide +kernel
  have hbytes : ∀ text, encode "<http://e/a> a <http://e/b> .\n# é" ++ [0xFF, byte '\n']
      ≠ encode text := by
    intro text htext
    rw [htext, fault?_encode] at hfault
    cases hfault
  obtain ⟨events, hyields, -, hreports⟩ := yields_undecodable (fun _ => "f")
    (show Options.base? ⟨none, true, none⟩ = .ok none from rfl)
    (encode "<http://e/a> a <http://e/b> .\n# é" ++ [0xFF, byte '\n'])
  obtain ⟨u, hvalid, -, ⟨before, line, -, -, -, hdecode, honly⟩, -⟩ := hreports hbytes
  obtain rfl : u = 34 := hvalid.eq (validUpTo_of_fault? hfault)
  have hfront : decode? (lineFront (encode "<http://e/a> a <http://e/b> .\n# é" ++ [0xFF, byte '\n'])
      34) = some "# é" := by decide +kernel
  have hline : String.ofList line = "# é" := Option.some.inj (hdecode.symm.trans hfront)
  have hnone : parserErrors (fun _ => "f") none
      (encode "<http://e/a> a <http://e/b> .\n# é" ++ [0xFF, byte '\n']) = [] := by
    decide +kernel
  refine ⟨events, hyields, (honly ?_).trans ?_⟩
  · rw [hnone]
    nofun
  · rw [← String.length_ofList, hline]
    rfl

end TidyTrig
