import TidyTrig.Proofs.Trig.Announcing
import TidyTrig.Proofs.Trig.Source

/-!
# Where declarations stand among the events

A source gives its parser a document directive by directive. `readWhole` gives it the document in one
piece. The two differ by the declarations alone, and each declaration stands where the parser has
yielded all that follows from the document up to the end of its directive (`yields_interleaved`).
-/

namespace TidyTrig.Trig

/-- Whether an event announces a declaration. -/
def isDeclaration (e : Event) : Bool := e.declaration?.isSome

variable (labels : Nat → String)

/-- The events of a document that the parser is given in one piece, without declarations. -/
def readWhole (base : Option Iri) (bytes : Bytes) : List Event :=
  let (events, p) := ((Parser.start base).feed bytes).drain labels false
  let events := events ++ p.close labels
  events ++ undecodable bytes events ++ [.finished]

/-- What the parser yields of the bytes up to an offset, not knowing what follows them, and where
it is then. -/
def readFront (base : Option Iri) (bytes : Bytes) (stop : Nat) : List Event × Parser :=
  ((Parser.start base).feed (bytes.take stop)).drain labels false

/-- What is yielded by a parser is no declaration. -/
theorem isDeclaration_of_isParsed {events : List Event} (h : ∀ e ∈ events, e.isParsed) :
    events.filter (!isDeclaration ·) = events := by
  apply List.filter_eq_self.2
  intro e he
  have := h e he
  cases e <;> first | rfl | cases this

/-- What a reader yields is declarations and what a parser yields. -/
theorem isParsed_or_isDeclaration_of_readFrom (p : Parser) (given : Nat) (rest : Bytes)
    (ds : List Directive) :
    ∀ e ∈ readFrom labels p given rest ds, e.isParsed = !isDeclaration e := by
  induction ds generalizing p given rest with
  | nil =>
    rw [readFrom]
    intro e he
    have : e.isParsed := by
      rcases List.mem_append.1 he with he | he
      · exact Parser.isParsed_drain labels _ _ e he
      · exact Parser.isParsed_close labels _ e he
    cases e <;> first | rfl | cases this
  | cons d ds ih =>
    rw [readFrom]
    intro e he
    rcases List.mem_append.1 he with he | he
    · have := Parser.isParsed_drain labels _ _ e he
      cases e <;> first | rfl | cases this
    · rcases List.mem_cons.1 he with rfl | he
      · rfl
      · exact ih _ _ _ e he

/-- Reading is cut at each directive: what comes before its declaration are all results of the
bytes up to its end and the declarations of the directives before it. -/
theorem exists_of_readFrom (p : Parser) (given : Nat) (rest : Bytes) {ds : List Directive}
    (hle : ∀ d ∈ ds, given ≤ d.stop) (hsorted : ds.Pairwise (·.stop ≤ ·.stop)) {k : Nat}
    {d : Directive} (hd : ds[k]? = some d) :
    ∃ before after,
      readFrom labels p given rest ds = before ++ .declaration (d.announce
          ((p.feed (rest.take (d.stop - given))).drain labels false).2) :: after
        ∧ before.filter (!isDeclaration ·)
          = ((p.feed (rest.take (d.stop - given))).drain labels false).1
        ∧ (declarationsOf before).length = k := by
  induction ds generalizing p given rest k with
  | nil => cases hd
  | cons first ds ih =>
    rw [List.pairwise_cons] at hsorted
    have hlater := fun stop' => @Parser.drain_take labels p rest given first.stop stop'
      (hle first List.mem_cons_self)
    have hparsed := Parser.isParsed_drain labels (p.feed (rest.take (first.stop - given))) false
    rw [readFrom]
    generalize hfront : (p.feed (rest.take (first.stop - given))).drain labels false = front
      at hlater hparsed ⊢
    obtain ⟨events, q⟩ := front
    dsimp only at hparsed hlater ⊢
    cases k with
    | zero =>
      cases hd
      rw [hfront]
      refine ⟨events, _, rfl, isDeclaration_of_isParsed hparsed, ?_⟩
      rw [declarationsOf_of_isParsed hparsed, List.length_nil]
    | succ k =>
      rw [List.getElem?_cons_succ] at hd
      have hmem : d ∈ ds := List.mem_of_getElem? hd
      obtain ⟨before, after, hread, hresults, hcount⟩ :=
        ih q first.stop (rest.drop (first.stop - given)) hsorted.1 hsorted.2 hd
      rw [hlater d.stop (hsorted.1 d hmem), hread]
      refine ⟨events ++ .declaration (first.announce q) :: before, after, ?_, ?_, ?_⟩
      · rw [List.append_assoc]
        rfl
      · rw [List.filter_append, isDeclaration_of_isParsed hparsed,
          List.filter_cons_of_neg Bool.false_ne_true, hresults]
      · rw [declarationsOf_append, declarationsOf_of_isParsed hparsed, declarationsOf_cons]
        show (_ :: declarationsOf before).length = k + 1
        rw [List.length_cons, hcount]

/-- Undecodable bytes are reported on lines without a problem, whatever was declared. -/
theorem undecodable_filter (bytes : Bytes) (events : List Event) :
    undecodable bytes (events.filter (!isDeclaration ·)) = undecodable bytes events := by
  have hlines : problemLines (events.filter (!isDeclaration ·)) = problemLines events := by
    rw [problemLines, problemLines, List.filterMap_filter]
    congr 1
    funext e
    cases e <;> rfl
  rw [undecodable, undecodable, hlines]

theorem isDeclaration_undecodable (bytes : Bytes) (events : List Event) :
    (undecodable bytes events).filter (!isDeclaration ·) = undecodable bytes events := by
  apply List.filter_eq_self.2
  intro e he
  obtain ⟨p, rfl⟩ := exists_of_mem_undecodable he
  rfl

/-- But for the declarations, reading yields what a parser yields that is given the document in one
piece. -/
theorem filter_readAll (base : Option Iri) (bytes : Bytes) :
    (readAll labels base false bytes).filter (!isDeclaration ·) = readWhole labels base bytes := by
  have hparser : (readFrom labels (.start base) 0 bytes (Directive.scan bytes)).filter
        (!isDeclaration ·)
      = (((Parser.start base).feed bytes).drain labels false).1
        ++ (((Parser.start base).feed bytes).drain labels false).2.close labels := by
    have hclose := Parser.close_feed labels ((Parser.start base).feed bytes) []
    rw [Parser.feed_nil, Parser.feed_nil] at hclose
    rw [← hclose, ← events_readFrom labels _ 0 _ (Directive.scan bytes)]
    apply List.filter_congr
    intro e he
    exact (isParsed_or_isDeclaration_of_readFrom labels _ _ _ _ e he).symm
  unfold readAll
  dsimp only
  rw [if_neg Bool.false_ne_true, List.append_nil, List.filter_append, List.filter_append,
    isDeclaration_undecodable, ← undecodable_filter, hparser]
  rfl

/-- Each declaration stands right behind all that follows from the document up to the end of its
directive. -/
theorem exists_of_readAll_of_directive (base : Option Iri) {bytes : Bytes} {k : Nat} {d : Directive}
    (hd : (Directive.scan bytes)[k]? = some d) :
    ∃ before after,
      readAll labels base false bytes = before
          ++ .declaration (d.announce (readFront labels base bytes d.stop).2) :: after
        ∧ before.filter (!isDeclaration ·) = (readFront labels base bytes d.stop).1
        ∧ (declarationsOf before).length = k := by
  have hle : ∀ d ∈ Directive.scan bytes, 0 ≤ d.stop := fun d _ => Nat.zero_le d.stop
  obtain ⟨before, after, hread, hresults, hcount⟩ := exists_of_readFrom labels (.start base) 0
    bytes hle (Directive.pairwise_scanFrom none 0 bytes) hd
  rw [Nat.sub_zero] at hread hresults
  -- What the document as a whole is faulted for comes behind all declarations.
  obtain ⟨more, hmore⟩ : ∃ more, readAll labels base false bytes
      = readFrom labels (.start base) 0 bytes (Directive.scan bytes) ++ more := by
    unfold readAll
    dsimp only
    rw [List.append_assoc, List.append_assoc]
    exact ⟨_, rfl⟩
  refine ⟨before, after ++ more, ?_, hresults, hcount⟩
  rw [hmore, hread, List.append_assoc]
  rfl

/-- Feeding the parser directive by directive leaves no trace but the declarations. There is one for
each directive that the scan finds, in its order, and it stands right behind all that follows from
the document up to the end of the directive and before all that does not. -/
theorem yields_interleaved {o : Options} {base : Option Iri} (hbase : o.base? = .ok base)
    (bytes : Bytes) :
    ∃ events, Yields labels { o with warnsUnused := false, maxProblems := none } bytes events
      ∧ events.filter (!isDeclaration ·) = readWhole labels base bytes
      ∧ (declarationsOf events).length = (Directive.scan bytes).length
      ∧ ∀ k d, (Directive.scan bytes)[k]? = some d →
        ∃ before after,
          events = before
              ++ .declaration (d.announce (readFront labels base bytes d.stop).2) :: after
            ∧ before.filter (!isDeclaration ·) = (readFront labels base bytes d.stop).1
            ∧ (declarationsOf before).length = k := by
  refine ⟨_, yields_readAll labels hbase false bytes, filter_readAll labels base bytes, ?_, ?_⟩
  · rw [declarationsOf_readAll, List.length_map, Directive.finds, List.length_map]
    rfl
  · intro k d hd
    exact exists_of_readAll_of_directive labels base hd

/-- The end of a label is mistaken for a directive. Its declaration stands behind the statement,
whose dot the parser withholds. -/
theorem yields_interleaved_label :
    (Directive.scan (Utf8.encode "@prefix p: <s:> . _:a.prefix p: <o:> ."))[1]?
        = some ⟨"p", "o:", 22, 38⟩
      ∧ ∃ events, Yields (fun _ => "f") ⟨none, false, none⟩
          (Utf8.encode "@prefix p: <s:> . _:a.prefix p: <o:> .") events
        ∧ ∃ before after, events = before ++ .declaration ⟨"p", "o:"⟩ :: after
          ∧ before.filter (!isDeclaration ·)
            = [.statement ⟨none, .blank "a.prefix", .iri "s:", .iri "o:"⟩]
          ∧ (declarationsOf before).length = 1 := by
  have hscan : (Directive.scan (Utf8.encode "@prefix p: <s:> . _:a.prefix p: <o:> ."))[1]?
      = some ⟨"p", "o:", 22, 38⟩ := by decide +kernel
  refine ⟨hscan, ?_⟩
  obtain ⟨events, hyields, -, -, h⟩ := yields_interleaved (fun _ => "f")
    (show Options.base? ⟨none, false, none⟩ = .ok none from rfl)
    (Utf8.encode "@prefix p: <s:> . _:a.prefix p: <o:> .")
  obtain ⟨before, after, hevents, hresults, hcount⟩ := h 1 ⟨"p", "o:", 22, 38⟩ hscan
  refine ⟨events, hyields, before, after, hevents, hresults.trans ?_, hcount⟩
  decide +kernel

end TidyTrig.Trig
