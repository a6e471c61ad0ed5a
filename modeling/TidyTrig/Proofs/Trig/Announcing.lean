import TidyTrig.Proofs.Iri.Reading
import TidyTrig.Proofs.Trig.Directive
import TidyTrig.Proofs.Trig.Reading

/-!
# What is announced

Each directive that a scan finds is announced when the parser has been given the document up to
the end of it (`declarationsOf_readAll`). What brings its own scheme is announced as it is written.
-/

namespace TidyTrig.Trig

open Directive

variable (labels : Nat → String)

/-- What a directive with this declaration announces. -/
def announced (space : Namespace) (p : Parser) : Namespace :=
  (⟨space.name, space.iri, 0, 0⟩ : Directive).announce p

theorem announced_of_hasScheme {space : Namespace} (h : hasScheme space.iri) (p : Parser) :
    announced space p = space := by
  rw [announced, Directive.announce, if_pos h]

/-- Every IRI starts with a scheme. -/
theorem hasScheme_of_parse {text : String} {i : Iri} (h : Iri.parse text = .ok i) :
    hasScheme text := by
  obtain ⟨scheme, rest, hscheme, -⟩ := Iri.exists_scheme_of_ofChars h
  obtain ⟨htext, hall, halpha⟩ := Iri.of_scheme? hscheme
  have hcolon : ∀ c ∈ scheme, c ≠ ':' := by
    rintro c hc rfl
    exact absurd (List.all_eq_true.1 hall _ hc) (by decide)
  have htake : (scheme ++ ':' :: rest).takeWhile (· ≠ ':') = scheme := by
    rw [List.takeWhile_append_of_pos (fun c hc => by simpa using hcolon c hc),
      List.takeWhile_cons_of_neg (by simp), List.append_nil]
  have hfirst : scheme.head?.any Char.isAlpha := by
    cases scheme with
    | nil =>
      rw [htext] at halpha
      exact absurd (halpha ':' rfl) (by decide)
    | cons c scheme =>
      rw [htext] at halpha
      exact halpha c rfl
  have hlength : scheme.length < (scheme ++ ':' :: rest).length := by
    rw [List.length_append, List.length_cons]
    omega
  rw [hasScheme]
  rw [htext, htake, hall, hfirst, decide_eq_true hlength]
  rfl

/-- Where the parser is when it was given the document up to `after`. -/
def parserBefore (base : Option Iri) (bytes after : Bytes) : Parser :=
  (((Parser.start base).feed (bytes.take (bytes.length - after.length))).drain labels false).2

theorem declarationsOf_readFrom (p : Parser) {given : Nat} (rest : Bytes) {ds : List Directive}
    (hle : ∀ d ∈ ds, given ≤ d.stop) (hsorted : ds.Pairwise (·.stop ≤ ·.stop)) :
    declarationsOf (readFrom labels p given rest ds)
      = ds.map fun d => d.announce ((p.feed (rest.take (d.stop - given))).drain labels false).2 := by
  induction ds generalizing p given rest with
  | nil =>
    rw [readFrom, declarationsOf_append,
      declarationsOf_of_isParsed (Parser.isParsed_drain labels _ _),
      declarationsOf_of_isParsed (Parser.isParsed_close labels _)]
    rfl
  | cons d ds ih =>
    rw [List.pairwise_cons] at hsorted
    have hlater := ih ((p.feed (rest.take (d.stop - given))).drain labels false).2
      (rest.drop (d.stop - given)) hsorted.1 hsorted.2
    rw [readFrom, declarationsOf_append, declarationsOf_cons,
      declarationsOf_of_isParsed (Parser.isParsed_drain labels _ _), hlater, List.map_cons]
    show d.announce _ :: _ = _
    congr 1
    apply List.map_congr_left
    intro d' hd'
    -- Feeding in pieces leaves the parser where feeding the whole does.
    rw [Parser.drain_take labels p rest (hle d List.mem_cons_self) (hsorted.1 d' hd')]

/-- A document announces what a scan finds, each declaration when the parser was given all up to
what follows its directive. -/
theorem declarationsOf_readAll (base : Option Iri) (warnsUnused : Bool) (bytes : Bytes) :
    declarationsOf (readAll labels base warnsUnused bytes)
      = (finds true bytes).map fun f => announced f.1 (parserBefore labels base bytes f.2) := by
  have hundecodable : ∀ events, declarationsOf (undecodable bytes events) = [] := fun _ =>
    declarationsOf_of_problems fun _ => exists_of_mem_undecodable
  have hunused : ∀ spaces iris, declarationsOf (unused spaces iris) = [] := fun _ _ =>
    declarationsOf_of_problems fun _ he => (exists_of_mem_unused he).imp fun _ => And.left
  have hstart : ∀ d ∈ scanFrom none 0 bytes, 0 ≤ d.stop := fun d _ => Nat.zero_le d.stop
  have hfrom := declarationsOf_readFrom labels (.start base) bytes hstart
    (pairwise_scanFrom none 0 bytes)
  unfold readAll
  dsimp only
  rw [declarationsOf_append, declarationsOf_append, declarationsOf_append, hundecodable,
    Directive.scan, hfrom, finds, List.map_map]
  have hwarnings : declarationsOf (if warnsUnused then unused (declared bytes
      (scanFrom none 0 bytes) (readFrom labels (.start base) 0 bytes (scanFrom none 0 bytes)))
      (mentioned (readFrom labels (.start base) 0 bytes (scanFrom none 0 bytes))) else []) = [] := by
    split
    · exact hunused _ _
    · rfl
  rw [hwarnings]
  simp only [List.append_nil, declarationsOf_cons, declarationsOf_nil]
  show List.map _ _ ++ [] = _
  rw [List.append_nil]
  apply List.map_congr_left
  intro d _
  show d.announce _ = announced d.space (parserBefore labels base bytes (bytes.drop d.stop))
  have hfront : bytes.take (bytes.length - (bytes.drop d.stop).length) = bytes.take (d.stop - 0) := by
    rw [List.length_drop, Nat.sub_zero, List.take_eq_take_iff]
    omega
  rw [parserBefore, hfront]
  rfl

/-- Absolute IRIs are announced as they are written. -/
theorem declarationsOf_readAll_of_hasScheme (base : Option Iri) (warnsUnused : Bool) {bytes : Bytes}
    (h : ∀ space ∈ spaces true bytes, hasScheme space.iri) :
    declarationsOf (readAll labels base warnsUnused bytes) = spaces true bytes := by
  rw [declarationsOf_readAll, spaces]
  apply List.map_congr_left
  intro f hf
  exact announced_of_hasScheme (h f.1 (List.mem_map_of_mem hf)) _

end TidyTrig.Trig
