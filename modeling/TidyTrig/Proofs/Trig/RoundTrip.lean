import TidyTrig.Proofs.Trig.Clauses
import TidyTrig.Proofs.Trig.Source
import TidyTrig.Proofs.Trig.Writer

/-!
# What is written is read back

A reader keeps up with the writer: after each operation, what was written so far is read without a
fault and yields the statements that were given so far. Only the object of the latest statement
waits for the mark after it. `IsRead` is this invariant; it says nothing of the layout but that its
indentation is blank.
-/

namespace TidyTrig.Trig

open Utf8

/-- A text of spaces and tabs. -/
def isBlankText (text : String) : Bool := text.toList.all fun c => c = ' ' || c = '\t'

/-- Reading this text from the start yields the statements and leads to the state. -/
def LeadsTo (labels : Nat → String) (base : Option Iri) (text : Bytes) (ss : List Statement)
    (r : Recognition) : Prop :=
  ∀ rest, Reads labels (.start base) (text ++ rest) ss r rest

section

variable {labels : Nat → String} {base : Option Iri} {text : Bytes} {ss : List Statement}
  {r : Recognition}

theorem LeadsTo.append (h : LeadsTo labels base text ss r) {more : Bytes} {ss' : List Statement}
    {r' : Recognition} (hmore : ∀ rest, Reads labels r (more ++ rest) ss' r' rest) :
    LeadsTo labels base (text ++ more) (ss ++ ss') r' := by
  intro rest
  rw [List.append_assoc]
  exact (h _).trans (hmore rest)

/-- Blanks lead nowhere. -/
theorem LeadsTo.skip (h : LeadsTo labels base text ss r) {more : Bytes}
    (hmore : ∀ rest, Skips (more ++ rest) rest) : LeadsTo labels base (text ++ more) ss r := by
  have hread := h.append (fun rest => Reads.blanks (hmore rest))
  rw [List.append_nil] at hread
  exact hread

theorem LeadsTo.lineFeed (h : LeadsTo labels base text ss r) :
    LeadsTo labels base (text ++ encode "\n") ss r :=
  h.skip Skips.lineFeed

theorem skips_of_isBlankText {indent : String} (h : isBlankText indent) (rest : Bytes) :
    Skips (encode indent ++ rest) rest := by
  apply Skips.blanks
  intro b hb
  obtain ⟨c, hc, hbyte⟩ := List.mem_flatMap.1 hb
  have hblank := List.all_eq_true.1 h c hc
  rw [Bool.or_eq_true, decide_eq_true_eq, decide_eq_true_eq] at hblank
  rcases hblank with rfl | rfl
  · exact .inl (List.mem_singleton.1 hbyte)
  · exact .inr (List.mem_singleton.1 hbyte)

end

/-! ## Clauses in a row -/

/-- The state in a graph, before a statement. -/
def ready (r : Recognition) (stale : Option Term) : Option Term → Recognition
  | none => r.placed [.document] stale [] []
  | some name => r.placed [.blockStatement, .blockEnd, .document] (some name) [] []

section

variable (labels : Nat → String) {r : Recognition} {spaces : List Namespace}

/-- A subject and a verb lead to an object. -/
theorem reads_subject (hknows : Knows r spaces) {subject : Term} (hkind : subject.isResource)
    (hsubject : subject.isSpellable) {predicate : String} (hpredicate : isIri predicate)
    (usesKeyword : Bool) (stale graph : Option Term) (rest : Bytes) :
    Reads labels (ready r stale graph)
      (encode (spellTerm spaces subject ++ " "
        ++ spellPredicate spaces usesKeyword (.iri predicate) ++ " ") ++ rest) []
      (r.placed (.objects :: .predicatesEnd :: below graph) graph [subject] [predicate]) rest := by
  obtain ⟨t, hword, hstands⟩ := exists_word_of_resource hknows hkind hsubject
  obtain ⟨t', hword', hverb⟩ := exists_word_of_predicate hknows usesKeyword hpredicate
  have htext : encode (spellTerm spaces subject ++ " "
      ++ spellPredicate spaces usesKeyword (.iri predicate) ++ " ") ++ rest
      = encode (spellTerm spaces subject) ++ byte ' '
        :: (encode (spellPredicate spaces usesKeyword (.iri predicate)) ++ byte ' ' :: rest) := by
    simp only [encode_append, List.append_assoc]
    rfl
  rw [htext]
  cases graph with
  | none =>
    have hfirst := Lexes.reads (r := r.placed [.document] stale [] []) hword labels
      (by rw [accept_top labels r hstands]; rfl) (.inl rfl)
      (encode (spellPredicate spaces usesKeyword (.iri predicate)) ++ byte ' ' :: rest)
    have hsecond := Lexes.reads (r := r.placed [.blockOrPredicates subject, .document] none [] [])
      hword' labels (by rw [accept_firstVerb labels hverb]; rfl) (.inl rfl) rest
    rw [accept_top labels r hstands] at hfirst
    rw [accept_firstVerb labels hverb] at hsecond
    exact hfirst.trans ((Reads.blanks (Skips.space _)).trans
      (hsecond.trans (.blanks (Skips.space rest))))
  | some name =>
    have hfirst := Lexes.reads (r := r.placed [.blockStatement, .blockEnd, .document] (some name)
      [] []) hword labels (by rw [accept_blockSubject labels r hstands]; rfl) (.inl rfl)
      (encode (spellPredicate spaces usesKeyword (.iri predicate)) ++ byte ' ' :: rest)
    have hsecond := Lexes.reads (r := r.placed [.predicates, .blockEnd, .document] (some name)
      [subject] []) hword' labels (by rw [accept_blockVerb labels hverb]; rfl)
      (.inl rfl) rest
    rw [accept_blockSubject labels r hstands] at hfirst
    rw [accept_blockVerb labels hverb] at hsecond
    exact hfirst.trans ((Reads.blanks (Skips.space _)).trans
      (hsecond.trans (.blanks (Skips.space rest))))

/-- After a semicolon, another verb leads to an object of the same subject. -/
theorem reads_verb (hknows : Knows r spaces) {predicate : String} (hpredicate : isIri predicate)
    (usesKeyword : Bool) (graph : Option Term) (subject : Term) (rest : Bytes) :
    Reads labels (r.placed (.morePredicates :: below graph) graph [subject] [])
      (encode (spellPredicate spaces usesKeyword (.iri predicate) ++ " ") ++ rest) []
      (r.placed (.objects :: .predicatesEnd :: below graph) graph [subject] [predicate]) rest := by
  obtain ⟨t, hword, hverb⟩ := exists_word_of_predicate hknows usesKeyword hpredicate
  have hread := Lexes.reads (r := r.placed (.morePredicates :: below graph) graph [subject] [])
    hword labels (by rw [accept_nextVerb labels hverb]; rfl) (.inl rfl) rest
  rw [accept_nextVerb labels hverb] at hread
  rw [encode_append, List.append_assoc]
  exact hread.trans (.blanks (Skips.space rest))

/-- The name of a graph and a brace lead into its block. -/
theorem reads_opening (hknows : Knows r spaces) {graph : Option Term}
    (hgraph : ∀ name ∈ graph, name.isResource ∧ name.isSpellable) (stale : Option Term)
    (rest : Bytes) :
    Reads labels (r.placed [.document] stale [] [])
      (encode (graph.elim "" fun name => spellTerm spaces name ++ " \x7b\n") ++ rest) []
      (ready r stale graph) rest := by
  cases graph with
  | none => exact .blanks (Skips.refl rest)
  | some name =>
    obtain ⟨hkind, hname⟩ := hgraph name rfl
    obtain ⟨t, hword, hstands⟩ := exists_word_of_resource hknows hkind hname
    have hfirst := Lexes.reads (r := r.placed [.document] stale [] []) hword labels
      (by rw [accept_top labels r hstands]; rfl) (.inl rfl)
      ([byte '\x7b'] ++ byte '\n' :: rest)
    have hsecond := Lexes.reads (r := r.placed [.blockOrPredicates name, .document] none [] [])
      (lexes_openBrace r.base) labels rfl (.inr rfl) rest
    rw [accept_top labels r hstands] at hfirst
    rw [Option.elim_some, encode_append, List.append_assoc]
    exact hfirst.trans ((Reads.blanks (Skips.space _)).trans
      (hsecond.trans (.blanks (Skips.lineFeed rest))))

/-- A brace leads out of a block. -/
theorem reads_closing (stale graph : Option Term) :
    ∃ stale', ∀ rest, Reads labels (ready r stale graph) (encode (Writer.closing graph) ++ rest) []
      (r.placed [.document] stale' [] []) rest := by
  cases graph with
  | none => exact ⟨stale, fun rest => .blanks (Skips.refl rest)⟩
  | some name =>
    refine ⟨some name, ?_⟩
    intro rest
    have hbrace : singleMark? (byte '\x7d') = some .closeBrace := by decide
    have hread := Lexes.reads (r := r.placed [.blockStatement, .blockEnd, .document] (some name)
      [] []) (lexes_singleMark r.base hbrace (by decide) IsGap) labels rfl (.inr rfl)
      rest
    have htext : encode (Writer.closing (some name)) = [byte '\x7d', byte '\n'] := by
      rw [Writer.closing]
      rfl
    rw [htext]
    exact hread.trans (.blanks (Skips.lineFeed rest))

end

/-! ## Declarations in force -/

theorem mem_bind {space s : Namespace} {spaces : List Namespace}
    (hdistinct : (spaces.map Namespace.name).Nodup) (h : s ∈ bind space spaces) :
    s = space ∨ s ∈ spaces ∧ s.name ≠ space.name := by
  induction spaces with
  | nil => exact .inl (List.mem_singleton.1 h)
  | cons first rest ih =>
    rw [List.map_cons, List.nodup_cons] at hdistinct
    rw [bind] at h
    split at h
    · next hname =>
      rcases List.mem_cons.1 h with h | h
      · exact .inl h
      · refine .inr ⟨List.mem_cons_of_mem _ h, ?_⟩
        intro heq
        apply hdistinct.1
        rw [hname, ← heq]
        exact List.mem_map_of_mem h
    · next hname =>
      rcases List.mem_cons.1 h with rfl | h
      · exact .inr ⟨List.mem_cons_self, hname⟩
      · rcases ih hdistinct.2 h with h | ⟨h, hne⟩
        · exact .inl h
        · exact .inr ⟨List.mem_cons_of_mem _ h, hne⟩

theorem mem_names_bind {space : Namespace} {spaces : List Namespace} {name : String}
    (h : name ∈ (bind space spaces).map Namespace.name) :
    name = space.name ∨ name ∈ spaces.map Namespace.name := by
  induction spaces with
  | nil => exact .inl (List.mem_singleton.1 h)
  | cons first rest ih =>
    rw [bind] at h
    split at h
    · rw [List.map_cons, List.mem_cons] at h
      rcases h with h | h
      · exact .inl h
      · exact .inr (List.mem_cons_of_mem _ h)
    · rw [List.map_cons, List.mem_cons] at h
      rcases h with h | h
      · rw [h]
        exact .inr List.mem_cons_self
      · rcases ih h with h | h
        · exact .inl h
        · exact .inr (List.mem_cons_of_mem _ h)

theorem nodup_bind (space : Namespace) {spaces : List Namespace}
    (h : (spaces.map Namespace.name).Nodup) : ((bind space spaces).map Namespace.name).Nodup := by
  induction spaces with
  | nil => exact List.nodup_cons.2 ⟨List.not_mem_nil, List.nodup_nil⟩
  | cons first rest ih =>
    rw [List.map_cons, List.nodup_cons] at h
    rw [bind]
    split
    · next hname =>
      rw [List.map_cons, List.nodup_cons, ← hname]
      exact h
    · next hname =>
      rw [List.map_cons, List.nodup_cons]
      refine ⟨?_, ih h.2⟩
      intro hmem
      rcases mem_names_bind hmem with heq | hmem
      · exact hname heq
      · exact h.1 hmem

/-- A reader of the new directive knows it, and still knows the others. -/
theorem knows_bind {r : Recognition} {spaces : List Namespace} (hknows : Knows r spaces)
    (hdistinct : (spaces.map Namespace.name).Nodup) {space : Namespace}
    (hname : isPrefixName space.name.toList) {i : Iri} (hiri : ReadsAs r.base space.iri i) :
    Knows (r.declare space.name i) (bind space spaces) := by
  intro s hs
  rcases mem_bind hdistinct hs with rfl | ⟨hs, hne⟩
  · refine ⟨hname, i, ?_, hiri⟩
    rw [Recognition.space?, Recognition.declare, List.lookup_cons_self]
  · obtain ⟨hsname, j, hlookup, hreads⟩ := hknows s hs
    refine ⟨hsname, j, ?_, hreads⟩
    rw [Recognition.space?, Recognition.declare, List.lookup_cons, beq_false_of_ne hne]
    exact hlookup

/-! ## The invariant -/

/-- A writer that cannot fail, has written a text, and whose layout is blank. -/
structure IsSound (w : Writer) : Prop where
  text : ∃ text, w.device.contents = encode text
  room : w.device.room = none
  flushes : w.device.failsToFlush = false
  distinct : (w.spaces.map Namespace.name).Nodup
  blank : isBlankText w.layout.indent

/-- Nothing is open, and all that was given is read. -/
structure IsClosed (labels : Nat → String) (base : Option Iri) (w : Writer)
    (ss : List Statement) : Prop where
  sound : IsSound w
  graph_eq : w.graph = none
  subject_eq : w.subject = none
  predicate_eq : w.predicate = none
  read : ∃ r stale, r.base = base ∧ Knows r w.spaces
    ∧ LeadsTo labels base w.device.contents ss (r.placed [.document] stale [] [])

/-- The latest statement is open: its object was written, and is read with the mark after it. -/
structure IsOpen (labels : Nat → String) (base : Option Iri) (w : Writer) (ss : List Statement)
    (graph : Option Term) (subject : Term) (predicate : String) : Prop where
  sound : IsSound w
  graph_eq : w.graph = some graph
  subject_eq : w.subject = some subject
  predicate_eq : w.predicate = some (.iri predicate)
  read : ∃ r goals object head former, r.base = base ∧ Knows r w.spaces ∧ ExpectsObject graph goals
    ∧ object.isSpellable ∧ w.device.contents = head ++ encode (spellTerm w.spaces object)
    ∧ ss = former ++ [⟨graph, subject, .iri predicate, object⟩]
    ∧ LeadsTo labels base head former (r.placed goals graph [subject] [predicate])

/-- What was written so far is read back as what was given so far. -/
def IsRead (labels : Nat → String) (base : Option Iri) (w : Writer) (ss : List Statement) : Prop :=
  IsClosed labels base w ss ∨ ∃ graph subject predicate,
    IsOpen labels base w ss graph subject predicate

section

variable {labels : Nat → String} {base : Option Iri} {w : Writer} {ss : List Statement}

theorem isClosed_start {layout : Layout} (hblank : isBlankText layout.indent) :
    IsClosed labels base (.start .unlimited layout) [] where
  sound := ⟨⟨"", rfl⟩, rfl, rfl, List.nodup_nil, hblank⟩
  graph_eq := rfl
  subject_eq := rfl
  predicate_eq := rfl
  read := by
    refine ⟨.start base, none, rfl, nofun, ?_⟩
    intro rest
    exact .blanks (Skips.refl rest)

/-- A mark and a blank complete the open statement. -/
theorem IsOpen.leadsTo {graph : Option Term} {subject : Term} {predicate : String}
    (h : IsOpen labels base w ss graph subject predicate) {mark : Mark} {m c : UInt8}
    (hm : ∀ base, Lexes base [m] (.mark mark) IsGap) (hcaret : mark ≠ .caret2) (hc : IsGap c)
    {next : Recognition → Recognition}
    (hmark : ∀ r, MarkLeadsTo (r := r) labels mark graph subject predicate (next r))
    (hnext : ∀ r, (next r).faults = [] ∧ (next r).statements = []) :
    ∃ r, r.base = base ∧ Knows r w.spaces
      ∧ LeadsTo labels base (w.device.contents ++ [byte ' ', m, c]) ss (next r) := by
  obtain ⟨r, goals, object, head, former, hbase, hknows, hgoals, hobject, hcontents, hss, hread⟩ :=
    h.read
  refine ⟨r, hbase, hknows, ?_⟩
  intro rest
  rw [hcontents, List.append_assoc, List.append_assoc, hss]
  refine (hread _).trans ?_
  have hcomplete := reads_object labels hknows hgoals hobject (hm r.base) hcaret (hmark r) (hnext r)
    hc rest
  have hblank : Skips (c :: rest) rest := by
    rcases hc with rfl | rfl
    · exact Skips.space rest
    · exact Skips.lineFeed rest
  have hall := hcomplete.trans (.blanks hblank)
  rw [List.append_nil] at hall
  exact hall

/-! ## Ending what is open -/

/-- Writing a text keeps a writer sound, whatever becomes of what is open. -/
theorem IsSound.wrote (h : IsSound w) (text : String) {w' : Writer}
    (hdevice : w'.device = (w.wrote text).device) (hlayout : w'.layout = w.layout)
    (hdistinct : (w'.spaces.map Namespace.name).Nodup) : IsSound w' where
  text := by
    obtain ⟨former, hformer⟩ := h.text
    refine ⟨former ++ text, ?_⟩
    rw [hdevice, Writer.contents_wrote, hformer, encode_append]
  room := by
    rw [hdevice]
    exact h.room
  flushes := by
    rw [hdevice]
    exact h.flushes
  distinct := hdistinct
  blank := hlayout ▸ h.blank

/-- A dot completes the open statement and leads to the next one in its graph. -/
theorem IsOpen.leadsTo_ready {graph : Option Term} {subject : Term} {predicate : String}
    (h : IsOpen labels base w ss graph subject predicate) :
    ∃ r stale, r.base = base ∧ Knows r w.spaces
      ∧ LeadsTo labels base (w.device.contents ++ encode " .\n") ss (ready r stale graph) := by
  have hnext : ∀ r : Recognition, MarkLeadsTo (r := r) labels .dot graph subject predicate
      (ready r none graph) := by
    intro r
    cases graph with
    | none => exact dot_leadsTo_top labels subject predicate
    | some name => exact dot_leadsTo_block labels name subject predicate
  have hclear : ∀ r : Recognition, (ready r none graph).faults = []
      ∧ (ready r none graph).statements = [] := by
    intro r
    cases graph with
    | none => exact ⟨rfl, rfl⟩
    | some name => exact ⟨rfl, rfl⟩
  obtain ⟨r, hbase, hknows, hread⟩ := h.leadsTo lexes_dot (by decide) (.inr rfl) hnext hclear
  exact ⟨r, none, hbase, hknows, hread⟩

/-- The writer can end what is open at any time. -/
theorem IsRead.closeGraph (h : IsRead labels base w ss) :
    ∃ w', Writer.closeGraph w = .ok () w' ∧ IsClosed labels base w' ss := by
  rcases h with h | ⟨graph, subject, predicate, h⟩
  · exact ⟨w, Writer.closeGraph_of_none h.graph_eq h.subject_eq h.predicate_eq, h⟩
  · refine ⟨_, Writer.closeGraph_of_open h.sound.room h.graph_eq h.subject_eq, ?_⟩
    obtain ⟨r, stale, hbase, hknows, hread⟩ := h.leadsTo_ready
    obtain ⟨stale', hclosing⟩ := reads_closing labels (r := r) stale graph
    have hdevice := congrArg Writer.device (w.wrote_wrote " .\n" (Writer.closing graph))
    refine ⟨h.sound.wrote _ hdevice rfl h.sound.distinct, rfl, rfl, rfl, r, stale', hbase, hknows, ?_⟩
    have hall := hread.append hclosing
    rw [List.append_nil] at hall
    show LeadsTo labels base ((w.wrote " .\n").wrote (Writer.closing graph)).device.contents ss _
    rw [Writer.contents_wrote, Writer.contents_wrote]
    exact hall

/-! ## Declaring -/

theorem IsClosed.declared (h : IsClosed labels base w ss) {space : Namespace}
    (hspace : IsReadable base space) (gap : String)
    (hgap : ∀ rest, Skips (encode gap ++ rest) rest) :
    IsClosed labels base (w.declared space (gap ++ Writer.directive space)) ss := by
  obtain ⟨r, stale, rfl, hknows, hread⟩ := h.read
  obtain ⟨hname, i, hiri⟩ := hspace
  refine ⟨h.sound.wrote _ rfl rfl (nodup_bind space h.sound.distinct), h.graph_eq, h.subject_eq,
    h.predicate_eq, r.declare space.name i, none, rfl,
    knows_bind hknows h.sound.distinct hname hiri, ?_⟩
  have hall := (hread.skip hgap).append (reads_directive labels hname hiri stale)
  rw [List.append_nil, List.append_assoc] at hall
  show LeadsTo labels r.base (w.wrote (gap ++ Writer.directive space)).device.contents ss _
  rw [Writer.contents_wrote, encode_append]
  exact hall

theorem IsRead.declare (h : IsRead labels base w ss) {space : Namespace}
    (hspace : IsReadable base space) :
    ∃ w', Writer.declare space w = .ok () w' ∧ IsClosed labels base w' ss := by
  obtain ⟨w', hclose, hclosed⟩ := h.closeGraph
  rcases h with h | ⟨graph, subject, predicate, h⟩
  · refine ⟨_, Writer.declare_of_none h.sound.room h.graph_eq space, ?_⟩
    have hdeclared := h.declared hspace "" Skips.refl
    rw [String.empty_append] at hdeclared
    exact hdeclared
  · exact ⟨_, Writer.declare_of_graph h.graph_eq hclose hclosed.sound.room space,
      hclosed.declared hspace "\n" Skips.lineFeed⟩

/-! ## Adding -/

/-- Once a text leads to where its object is expected, a statement can be joined. -/
theorem isOpen_joined (hsound : IsSound w) {s : Statement} (hgraph : w.graph = some s.graph)
    {predicate : String} (hpredicate : s.predicate = .iri predicate)
    (hobject : s.object.isSpellable) {text : String} {r : Recognition} {goals : List Goal}
    (hbase : r.base = base) (hknows : Knows r w.spaces) (hgoals : ExpectsObject s.graph goals)
    (hread : LeadsTo labels base (w.device.contents ++ encode text) ss
      (r.placed goals s.graph [s.subject] [predicate])) :
    IsOpen labels base (w.joined s (text ++ spellTerm w.spaces s.object)) (ss ++ [s]) s.graph
      s.subject predicate := by
  refine ⟨hsound.wrote _ rfl rfl hsound.distinct, hgraph, rfl, congrArg some hpredicate, r, goals,
    s.object, _, ss, hbase, hknows, hgoals, hobject, ?_, ?_, hread⟩
  · show (w.wrote (text ++ spellTerm w.spaces s.object)).device.contents = _
    rw [Writer.contents_wrote, encode_append, List.append_assoc]
    rfl
  · rw [← hpredicate]

theorem margin_skips (hsound : IsSound w) (s : Statement) (rest : Bytes) :
    Skips (encode (w.margin s) ++ rest) rest := by
  unfold Writer.margin
  split
  · exact skips_of_isBlankText hsound.blank rest
  · exact Skips.refl rest

/-- A statement on a line of its own, in a graph where none is open. -/
theorem isOpen_line (hsound : IsSound w) {s : Statement} (hgraph : w.graph = some s.graph)
    (hs : s.isSpellable) {predicate : String} (hpredicate : s.predicate = .iri predicate)
    {gap : String} {r : Recognition} {stale : Option Term} (hbase : r.base = base)
    (hknows : Knows r w.spaces)
    (hread : LeadsTo labels base (w.device.contents ++ encode gap) ss (ready r stale s.graph)) :
    IsOpen labels base (w.joined s (gap ++ w.line s)) (ss ++ [s]) s.graph s.subject predicate := by
  obtain ⟨-, ⟨hkind, hsubject⟩, ⟨p, hp, hiri⟩, hobject⟩ := Statement.of_isSpellable hs
  have hsame : p = predicate := Term.iri.inj (hp.symm.trans hpredicate)
  subst hsame
  have hverb := reads_subject labels hknows hkind hsubject hiri w.layout.usesKeyword stale s.graph
  have hall := (hread.skip (margin_skips hsound s)).append hverb
  rw [List.append_nil, List.append_assoc, List.append_assoc, ← encode_append, ← encode_append]
    at hall
  have htext : gap ++ w.line s = gap ++ (w.margin s ++ (spellTerm w.spaces s.subject ++ " "
      ++ spellPredicate w.spaces w.layout.usesKeyword (.iri p) ++ " "))
      ++ spellTerm w.spaces s.object := by
    simp only [Writer.line, Writer.claim, hp, String.append_assoc]
  rw [htext]
  exact isOpen_joined hsound hgraph hp hobject hbase hknows (.inl rfl) hall

/-- A statement of another graph than the open one. -/
theorem IsRead.add_otherGraph (h : IsRead labels base w ss) {s : Statement} (hs : s.isSpellable)
    (hgraph : w.graph ≠ some s.graph) {predicate : String}
    (hpredicate : s.predicate = .iri predicate) :
    ∃ w', Writer.add s w = .ok () w'
      ∧ IsOpen labels base w' (ss ++ [s]) s.graph s.subject predicate := by
  obtain ⟨w₀, hclose, hclosed⟩ := h.closeGraph
  obtain ⟨r, stale, hbase, hknows, hread⟩ := hclosed.read
  have hfit := Statement.misfit?_of_isSpellable hs
  have hgap : ∀ rest, Skips (encode (if w₀.hasWritten then "\n" else "") ++ rest) rest := by
    intro rest
    split
    · exact Skips.lineFeed rest
    · exact Skips.refl rest
  have hopening := (hread.skip hgap).append
    (reads_opening labels hknows (Statement.of_isSpellable hs).1 stale)
  rw [List.append_nil, List.append_assoc, ← encode_append] at hopening
  have hopen := Writer.openGraph_ok hclose hclosed.sound.room s.graph
  generalize hw₁ : ({ w₀.wrote (Writer.opening w₀ s.graph) with
    graph := some s.graph, hasWritten := true } : Writer) = w₁ at hopen
  have hsound : IsSound w₁ := by
    rw [← hw₁]
    exact hclosed.sound.wrote _ rfl rfl hclosed.sound.distinct
  have hknows₁ : Knows r w₁.spaces := by
    rw [← hw₁]
    exact hknows
  have hread₁ : LeadsTo labels base (w₁.device.contents ++ encode "") ss (ready r stale s.graph) := by
    have hcontents : w₁.device.contents = w₀.device.contents ++ encode (Writer.opening w₀ s.graph) := by
      rw [← hw₁]
      exact Writer.contents_wrote w₀ _
    rw [encode_empty, List.append_nil, hcontents]
    exact hopening
  have hgraph₁ : w₁.graph = some s.graph := by
    rw [← hw₁]
  have hsubject₁ : w₁.subject = none := by
    rw [← hw₁]
    exact hclosed.subject_eq
  refine ⟨_, (Writer.add_otherGraph hfit hgraph hopen).trans
    (Writer.addToGraph_first hsound.room hsubject₁), ?_⟩
  have hline := isOpen_line hsound hgraph₁ hs hpredicate hbase hknows₁ hread₁
  rw [String.empty_append] at hline
  exact hline

/-- A statement of the open graph, which may share the subject and the predicate of the one
before. -/
theorem IsOpen.add_sameGraph {subject : Term} {former : String} {s : Statement}
    (h : IsOpen labels base w ss s.graph subject former) (hs : s.isSpellable)
    {predicate : String} (hpredicate : s.predicate = .iri predicate) :
    ∃ w', Writer.add s w = .ok () w'
      ∧ IsOpen labels base w' (ss ++ [s]) s.graph s.subject predicate := by
  have hfit := Statement.misfit?_of_isSpellable hs
  obtain ⟨-, -, ⟨p, hp, hiri⟩, hobject⟩ := Statement.of_isSpellable hs
  have hsame : p = predicate := Term.iri.inj (hp.symm.trans hpredicate)
  subst hsame
  rw [Writer.add_sameGraph hfit h.graph_eq]
  -- A comma goes on with subject and predicate, a semicolon with the subject, a dot with neither.
  by_cases hsubject : subject = s.subject
  · subst hsubject
    by_cases hformer : former = p
    · subst hformer
      have hword : ∀ base, Lexes base [byte ','] (.mark .comma) IsGap := fun base =>
        lexes_singleMark base rfl rfl IsGap
      obtain ⟨r, hbase, hknows, hread⟩ := h.leadsTo (c := byte ' ') hword (by decide) (.inl rfl)
        (fun r => comma_leadsTo labels s.graph s.subject former) (fun r => ⟨rfl, rfl⟩)
      exact ⟨_, Writer.addToGraph_comma h.sound.room h.subject_eq (hp ▸ h.predicate_eq),
        isOpen_joined h.sound h.graph_eq hp hobject hbase hknows (.inr rfl) hread⟩
    · have hword : ∀ base, Lexes base [byte ';'] (.mark .semicolon) IsGap := fun base =>
        lexes_singleMark base rfl rfl IsGap
      obtain ⟨r, hbase, hknows, hread⟩ := h.leadsTo (c := byte '\n') hword (by decide) (.inr rfl)
        (fun r => semicolon_leadsTo labels s.graph s.subject former) (fun r => ⟨rfl, rfl⟩)
      have hne : w.predicate ≠ some s.predicate := by
        rw [h.predicate_eq, hp]
        intro heq
        exact hformer (Term.iri.inj (Option.some.inj heq))
      refine ⟨_, Writer.addToGraph_semicolon h.sound.room h.subject_eq hne, ?_⟩
      have hverb := ((hread.skip (margin_skips h.sound s)).skip
        (skips_of_isBlankText h.sound.blank)).append
        (reads_verb labels hknows hiri w.layout.usesKeyword s.graph s.subject)
      have hsemicolon : [byte ' ', byte ';', byte '\n'] = encode " ;\n" := rfl
      rw [hsemicolon, List.append_nil, List.append_assoc, List.append_assoc, List.append_assoc,
        ← encode_append, ← encode_append, ← encode_append] at hverb
      have htext : " ;\n" ++ w.margin s ++ w.layout.indent ++ w.claim s
          = " ;\n" ++ (w.margin s ++ (w.layout.indent
            ++ (spellPredicate w.spaces w.layout.usesKeyword (.iri p) ++ " ")))
            ++ spellTerm w.spaces s.object := by
        simp only [Writer.claim, hp, String.append_assoc]
      rw [htext]
      exact isOpen_joined h.sound h.graph_eq hp hobject hbase hknows (.inl rfl) hverb
  · refine ⟨_, Writer.addToGraph_next h.sound.room h.subject_eq hsubject, ?_⟩
    obtain ⟨r, stale, hbase, hknows, hread⟩ := h.leadsTo_ready
    have hgap := hread.lineFeed
    rw [List.append_assoc, ← encode_append] at hgap
    exact isOpen_line h.sound h.graph_eq hs hp hbase hknows hgap

theorem IsRead.add (h : IsRead labels base w ss) {s : Statement} (hs : s.isSpellable) :
    ∃ w', Writer.add s w = .ok () w' ∧ IsRead labels base w' (ss ++ [s]) := by
  obtain ⟨-, -, ⟨predicate, hpredicate, -⟩, -⟩ := Statement.of_isSpellable hs
  by_cases hgraph : w.graph = some s.graph
  · rcases h with h | ⟨graph, subject, former, h⟩
    · rw [h.graph_eq] at hgraph
      cases hgraph
    · have hsame : graph = s.graph := Option.some.inj (h.graph_eq.symm.trans hgraph)
      subst hsame
      obtain ⟨w', hadd, hopen⟩ := h.add_sameGraph hs hpredicate
      exact ⟨w', hadd, .inr ⟨_, _, _, hopen⟩⟩
  · obtain ⟨w', hadd, hopen⟩ := h.add_otherGraph hs hgraph hpredicate
    exact ⟨w', hadd, .inr ⟨_, _, _, hopen⟩⟩

/-- The end of a writer leaves a document that is read without a fault to its end. -/
theorem IsRead.finish (h : IsRead labels base w ss) :
    ∃ w' text, Writer.finish w = .ok () w' ∧ w'.device.contents = encode text
      ∧ problemsOf (readAll labels base false (encode text)) = []
      ∧ statementsOf (readAll labels base false (encode text)) = ss := by
  obtain ⟨w', hclose, hclosed⟩ := h.closeGraph
  obtain ⟨text, htext⟩ := hclosed.sound.text
  obtain ⟨r, stale, -, -, hread⟩ := hclosed.read
  refine ⟨w', text, Writer.finish_ok hclose hclosed.sound.flushes, htext, ?_⟩
  have hwhole := hread []
  rw [List.append_nil, htext] at hwhole
  exact readAll_of_reads labels hwhole (Skips.refl []) rfl rfl rfl

end

/-! ## Whole documents -/

/-- What a writer can be given. -/
inductive Entry where
  | declaration (space : Namespace)
  | statement (s : Statement)
deriving DecidableEq

namespace Entry

def isSpellable : Entry → Bool
  | .declaration space => space.isSpellable
  | .statement s => s.isSpellable

/-- Whether an entry is read back as it is written. -/
def IsReadable (base : Option Iri) : Entry → Prop
  | .declaration space => Trig.IsReadable base space
  | .statement s => s.isSpellable

theorem isReadable_of_isSpellable {entry : Entry} (h : entry.isSpellable) (base : Option Iri) :
    entry.IsReadable base := by
  cases entry with
  | declaration space => exact Trig.isReadable_of_isSpellable h base
  | statement s => exact h

def statement? : Entry → Option Statement
  | .declaration _ => none
  | .statement s => some s

/-- Gives an entry to a writer. -/
def write : Entry → Writer.Writing Unit
  | .declaration space => Writer.declare space
  | .statement s => Writer.add s

/-- Gives entries to a writer one after the other, and ends the document. -/
def writeAll : List Entry → Writer.Writing Unit
  | [] => Writer.finish
  | entry :: rest => do
    entry.write
    writeAll rest

end Entry

section

variable {labels : Nat → String} {base : Option Iri} {w : Writer} {ss : List Statement}

/-- Every entry keeps the invariant. -/
theorem IsRead.write (h : IsRead labels base w ss) {entry : Entry}
    (hentry : entry.IsReadable base) :
    ∃ w', entry.write w = .ok () w' ∧ IsRead labels base w' (ss ++ entry.statement?.toList) := by
  cases entry with
  | declaration space =>
    obtain ⟨w', hdeclare, hclosed⟩ := h.declare hentry
    refine ⟨w', hdeclare, .inl ?_⟩
    rw [Entry.statement?, Option.toList_none, List.append_nil]
    exact hclosed
  | statement s => exact h.add hentry

/-- Whatever is written after what was read back is read back too. -/
theorem IsRead.writeAll (h : IsRead labels base w ss) {entries : List Entry}
    (hentries : ∀ entry ∈ entries, entry.IsReadable base) :
    ∃ w' text, Entry.writeAll entries w = .ok () w' ∧ w'.device.contents = encode text
      ∧ problemsOf (readAll labels base false (encode text)) = []
      ∧ statementsOf (readAll labels base false (encode text))
        = ss ++ entries.filterMap Entry.statement? := by
  induction entries generalizing w ss with
  | nil =>
    rw [List.filterMap_nil, List.append_nil]
    exact h.finish
  | cons entry entries ih =>
    obtain ⟨w', hwrite, hread⟩ := h.write (hentries entry List.mem_cons_self)
    obtain ⟨w'', text, hall, htext, hproblems, hss⟩ :=
      ih hread fun e he => hentries e (List.mem_cons_of_mem _ he)
    refine ⟨w'', text, ?_, htext, hproblems, ?_⟩
    · rw [Entry.writeAll]
      exact (Writer.bind_ok hwrite).trans hall
    · rw [hss, List.append_assoc]
      cases entry with
      | declaration space => rfl
      | statement s => rfl

end

/-- Whatever can be spelled is written and read back, one for one and in order, however
declarations and statements follow each other. -/
theorem yields_writeAll (labels : Nat → String) {layout : Layout}
    (hindent : isBlankText layout.indent) {entries : List Entry}
    (hentries : ∀ entry ∈ entries, entry.isSpellable) (maxProblems : Option Nat) :
    ∃ w events, Entry.writeAll entries (.start .unlimited layout) = .ok () w
      ∧ Yields labels ⟨none, false, maxProblems⟩ w.device.contents events
      ∧ problemsOf events = []
      ∧ statementsOf events = entries.filterMap Entry.statement?
      ∧ events.getLast? = some .finished := by
  have hstart : IsRead labels none (.start .unlimited layout) [] := .inl (isClosed_start hindent)
  obtain ⟨w, text, hwrite, htext, hproblems, hss⟩ := hstart.writeAll fun entry he =>
    Entry.isReadable_of_isSpellable (hentries entry he) none
  have hyields : Yields labels ⟨none, false, maxProblems⟩ w.device.contents
      (readAll labels none false (encode text)) := by
    have hbase : Options.base? ⟨none, false, none⟩ = .ok none := rfl
    rw [htext]
    cases maxProblems with
    | none => exact yields_readAll labels hbase false (encode text)
    | some max =>
      -- There are no problems, so no limit cuts anything.
      have hlimited := yields_limitProblems labels hbase false (encode text) max
      rw [limitProblems_of_none hproblems] at hlimited
      exact hlimited
  refine ⟨w, _, hwrite, hyields, hproblems, hss, ?_⟩
  unfold readAll
  exact List.getLast?_concat

/-- A prefix is declared anew while a block is open, and the statement after it uses both its new
namespace and a label with a dot. -/
theorem yields_writeAll_rebound :
    ∃ w events, Entry.writeAll
        [.declaration ⟨"ex", "http://ex/"⟩,
          .statement ⟨some (.iri "http://ex/g"), .iri "http://ex/s", .iri rdfType,
            .literal (.tagged "say \"hi\"\n" "en-gb")⟩,
          .declaration ⟨"ex", "http://other/"⟩,
          .statement ⟨none, .blank "b.1", .iri "http://other/p",
            .literal (.typed "1" "http://other/n" (by decide))⟩]
        (.start .unlimited ⟨"\t", true⟩) = .ok () w
      ∧ Yields (fun _ => "f") ⟨none, false, some 0⟩ w.device.contents events
      ∧ problemsOf events = []
      ∧ statementsOf events
        = [⟨some (.iri "http://ex/g"), .iri "http://ex/s", .iri rdfType,
            .literal (.tagged "say \"hi\"\n" "en-gb")⟩,
          ⟨none, .blank "b.1", .iri "http://other/p",
            .literal (.typed "1" "http://other/n" (by decide))⟩]
      ∧ events.getLast? = some .finished :=
  have hindent : isBlankText (⟨"\t", true⟩ : Layout).indent := by decide +kernel
  yields_writeAll (fun _ => "f") hindent (by decide +kernel) (some 0)

end TidyTrig.Trig
