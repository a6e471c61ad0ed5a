import TidyTrig.Proofs.Formatting
import TidyTrig.Proofs.Trig.Announcing
import TidyTrig.Proofs.Trig.Declaring

/-!
# Formatting what was formatted

A canonical text is its own canonical form just if none of its lines is mistaken for a directive:
then what is announced on reading it is what was announced before, and it is written again from the
same declarations and statements. A line that is mistaken adds a directive at the top.
-/

namespace TidyTrig

open Trig Utf8

/-! ## What is written in front -/

/-- The directives of some declarations. -/
def header (spaces : List Namespace) : Bytes :=
  spaces.flatMap fun space => encode (Writer.directive space)

/-- The declarations in force after some declarations. -/
def inForce (spaces : List Namespace) : List Namespace := spaces.foldl (fun later s => bind s later) []

/-- The writer after some declarations. -/
def declaring (w : Writer) : List Namespace → Writer
  | [] => w
  | space :: rest => declaring (w.declared space (Writer.directive space)) rest

theorem writeAll_declarations {w : Writer} (hroom : w.device.room = none) (hgraph : w.graph = none)
    (spaces : List Namespace) (entries : List Entry) :
    Entry.writeAll (spaces.map .declaration ++ entries) w = Entry.writeAll entries (declaring w spaces) := by
  induction spaces generalizing w with
  | nil => rfl
  | cons space rest ih =>
    rw [List.map_cons, List.cons_append, Entry.writeAll]
    refine (Writer.bind_ok (Writer.declare_of_none hroom hgraph space)).trans ?_
    exact ih hroom hgraph

/-- A writer that has declared something has written its directives, and waits for a statement. -/
theorem declaring_spec (w : Writer) (spaces : List Namespace) :
    (declaring w spaces).device.contents = w.device.contents ++ header spaces
      ∧ (declaring w spaces).device.room = w.device.room ∧ (declaring w spaces).graph = w.graph
      ∧ (declaring w spaces).subject = w.subject ∧ (declaring w spaces).predicate = w.predicate
      ∧ (declaring w spaces).device.failsToFlush = w.device.failsToFlush
      ∧ (spaces ≠ [] → (declaring w spaces).hasWritten = true) := by
  induction spaces generalizing w with
  | nil =>
    refine ⟨?_, rfl, rfl, rfl, rfl, rfl, fun h => absurd rfl h⟩
    exact (List.append_nil _).symm
  | cons space rest ih =>
    obtain ⟨hcontents, hroom, hgraph, hsubject, hpredicate, hflush, hwritten⟩ :=
      ih (w.declared space (Writer.directive space))
    refine ⟨?_, hroom, hgraph, hsubject, hpredicate, hflush, ?_⟩
    · have hfirst : (w.declared space (Writer.directive space)).device.contents
          = w.device.contents ++ encode (Writer.directive space) := Writer.contents_wrote w _
      have hheader : header (space :: rest) = encode (Writer.directive space) ++ header rest :=
        List.flatMap_cons
      rw [declaring, hcontents, hfirst, hheader, List.append_assoc]
    · intro _
      cases rest with
      | nil => rfl
      | cons space' rest =>
        rw [declaring]
        exact hwritten (List.cons_ne_nil _ _)

/-! ## What is written behind -/

theorem appends_writeAll (entries : List Entry) : Writer.Appends (Entry.writeAll entries) := by
  induction entries with
  | nil => exact Writer.isModular_appends.finish
  | cons entry rest ih =>
    rw [Entry.writeAll]
    refine Writer.Appends.bind ?_ fun _ => ih
    cases entry with
    | declaration space => exact Writer.appends_declare space
    | statement s => exact Writer.isModular_appends.add s

/-- Behind directives, statements start after an empty line. -/
theorem head_statements {w w' : Writer} (hroom : w.device.room = none)
    (hflush : w.device.failsToFlush = false) (hgraph : w.graph = none) (hsubject : w.subject = none)
    (hpredicate : w.predicate = none) (hwritten : w.hasWritten = true) {ss : List Statement}
    (hss : ∀ s ∈ ss, s.isSpellable)
    (hall : Entry.writeAll (ss.map .statement) w = .ok () w') :
    ∃ body, w'.device.contents = w.device.contents ++ body ∧ body.head? ≠ some (byte '@') := by
  have hclose := Writer.closeGraph_of_none hgraph hsubject hpredicate
  cases ss with
  | nil =>
    rw [List.map_nil, Entry.writeAll, Writer.finish_ok hclose hflush] at hall
    cases hall
    exact ⟨[], (List.append_nil _).symm, (Option.some_ne_none _).symm⟩
  | cons s rest =>
    have hother : w.graph ≠ some s.graph := by
      rw [hgraph]
      exact (Option.some_ne_none _).symm
    have hfit := Statement.misfit?_of_isSpellable (hss s List.mem_cons_self)
    have hadd := Writer.add_otherGraph hfit hother
      (Writer.openGraph_ok hclose hroom s.graph)
    rw [List.map_cons, Entry.writeAll] at hall
    change (Writer.add s >>= fun _ => Entry.writeAll (rest.map .statement)) w = .ok () w' at hall
    have hopened : (Writer.addToGraph s >>= fun _ => Entry.writeAll (rest.map .statement))
        { w.wrote (w.opening s.graph) with graph := some s.graph, hasWritten := true }
        = .ok () w' := by
      rw [← hall]
      show EStateM.bind (Writer.addToGraph s) _ _ = EStateM.bind (Writer.add s) _ w
      unfold EStateM.bind
      rw [hadd]
    obtain ⟨more, hmore⟩ := ((Writer.isModular_appends.addToGraph s).bind fun _ =>
      appends_writeAll (rest.map .statement)) _ _ _ hopened
    refine ⟨encode (w.opening s.graph) ++ more, ?_, ?_⟩
    · rw [hmore, ← List.append_assoc]
      congr 1
      exact Writer.contents_wrote w _
    · rw [Writer.opening, hwritten, if_pos rfl, encode_append]
      exact fun h => absurd (Option.some.inj h) (by decide)

/-- A text tells how many directives it starts with. -/
theorem header_eq_nil {extra : List Namespace} {body body' : Bytes}
    (h : header extra ++ body = body') (hbody : body'.head? ≠ some (byte '@')) : extra = [] := by
  cases extra with
  | nil => rfl
  | cons space rest =>
    exfalso
    apply hbody
    rw [← h, header, List.flatMap_cons, Writer.directive]
    simp only [encode_append, List.append_assoc]
    rfl

/-- What was written with more declarations in front is another text. -/
theorem eq_nil_of_writeAll {layout : Layout} {spaces extra : List Namespace} {ss : List Statement}
    (hspaces : spaces ≠ []) (hss : ∀ s ∈ ss, s.isSpellable) {w w' : Writer}
    (hall : Entry.writeAll (spaces.map .declaration ++ ss.map .statement)
      (.start .unlimited layout) = .ok () w)
    (hall' : Entry.writeAll ((spaces ++ extra).map .declaration ++ ss.map .statement)
      (.start .unlimited layout) = .ok () w')
    (hsame : w'.device.contents = w.device.contents) : extra = [] := by
  obtain ⟨hcontents, hroom, hgraph, hsubject, hpredicate, hflush, hwritten⟩ :=
    declaring_spec (.start .unlimited layout) spaces
  obtain ⟨hcontents', -⟩ := declaring_spec (.start .unlimited layout) (spaces ++ extra)
  rw [writeAll_declarations rfl rfl] at hall hall'
  obtain ⟨body, hbody, hhead⟩ :=
    head_statements hroom hflush hgraph hsubject hpredicate (hwritten hspaces) hss hall
  obtain ⟨body', hbody'⟩ := appends_writeAll (ss.map .statement) _ _ _ hall'
  rw [hbody, hbody', hcontents, hcontents', header, header, List.flatMap_append,
    List.append_assoc, List.append_assoc, List.append_assoc] at hsame
  exact header_eq_nil (List.append_cancel_left (List.append_cancel_left hsame)) hhead

/-! ## What is mistaken -/

/-- The statements that start a line: those with another graph or subject than the statement
before. -/
def openers (former : Option (Option Term × Term)) : List Statement → List Statement
  | [] => []
  | s :: rest =>
    (if former = some (s.graph, s.subject) then [] else [s]) ++ openers (some (s.graph, s.subject)) rest

theorem mem_of_openers {former : Option (Option Term × Term)} {ss : List Statement} {s : Statement}
    (h : s ∈ openers former ss) : s ∈ ss := by
  induction ss generalizing former with
  | nil => cases h
  | cons s' rest ih =>
    rw [openers, List.mem_append] at h
    rcases h with h | h
    · split at h
      · cases h
      · rw [List.mem_singleton.1 h]
        exact List.mem_cons_self
    · exact List.mem_cons_of_mem _ (ih h)

theorem found_declarations (usesKeyword : Bool) (later spaces : List Namespace)
    (entries : List Entry) :
    found usesKeyword later none (spaces.map .declaration ++ entries)
      = spaces ++ found usesKeyword (spaces.foldl (fun later s => bind s later) later) none entries := by
  induction spaces generalizing later with
  | nil => rfl
  | cons space rest ih =>
    rw [List.map_cons, List.cons_append, found, ih]
    rfl

theorem found_statements (usesKeyword : Bool) (later : List Namespace)
    (former : Option (Option Term × Term)) (ss : List Statement) :
    found usesKeyword later former (ss.map .statement)
      = (openers former ss).filterMap (mistaken? later usesKeyword) := by
  induction ss generalizing former with
  | nil => rfl
  | cons s rest ih =>
    rw [List.map_cons, found, ih, openers, List.filterMap_append]
    congr 1
    split
    · rfl
    · rw [List.filterMap_cons, List.filterMap_nil]
      cases mistaken? later usesKeyword s <;> rfl

/-- The names in force are those of declarations. -/
theorem mem_names_inForce {spaces : List Namespace} {space : Namespace} (h : space ∈ inForce spaces) :
    space.name ∈ spaces.map Namespace.name := by
  have hall : ∀ later : List Namespace,
      space.name ∈ (spaces.foldl (fun later s => bind s later) later).map Namespace.name →
        space.name ∈ spaces.map Namespace.name ∨ space.name ∈ later.map Namespace.name := by
    clear h
    induction spaces with
    | nil => exact fun later h => .inr h
    | cons first rest ih =>
      intro later h
      rw [List.map_cons, List.mem_cons]
      rcases ih _ h with h | h
      · exact .inl (.inr h)
      · rcases mem_names_bind h with h | h
        · exact .inl (.inl h)
        · exact .inr h
  rcases hall [] (List.mem_map_of_mem h) with h | h
  · exact h
  · cases h

/-- What the lines of the canonical form are mistaken for. -/
def mistakes (usesKeyword : Bool) (declarations : List Namespace) (ss : List Statement) :
    List Namespace :=
  (openers none (Statement.sort ss)).filterMap (mistaken? (inForce declarations) usesKeyword)

/-- Without declarations, no line is mistaken for one. -/
theorem mistaken?_nil (usesKeyword : Bool) {s : Statement} (hs : s.isSpellable) :
    mistaken? [] usesKeyword s = none := by
  obtain ⟨-, -, ⟨p, hp, -⟩, -⟩ := Statement.of_isSpellable hs
  have hverb : (spellPredicate [] usesKeyword s.predicate).toList.getLast? ≠ some ':' := by
    unfold spellPredicate
    split
    · decide
    · have hangle : spellTerm [] s.predicate = "<" ++ p ++ ">" := by rw [hp]; rfl
      have hchars : ("<" ++ p ++ ">").toList = ("<" ++ p).toList ++ ['>'] := String.toList_append
      rw [hangle, hchars, List.getLast?_concat]
      decide
  unfold mistaken?
  split
  · dsimp only
    rw [decide_eq_false hverb, Bool.and_false, Bool.false_and, if_neg Bool.false_ne_true]
  · rfl

theorem mistakes_nil (usesKeyword : Bool) {ss : List Statement} (hss : ∀ s ∈ ss, s.isSpellable) :
    mistakes usesKeyword [] ss = [] :=
  List.filterMap_eq_nil_iff.2 fun s hs =>
    mistaken?_nil usesKeyword (hss s (Statement.mem_sort.1 (mem_of_openers hs)))

/-- What lines are mistaken for could be a directive, if the declarations and the statements could be
written. -/
theorem isSpellable_of_mem_mistakes {usesKeyword : Bool} {declarations : List Namespace}
    {ss : List Statement} (hnames : ∀ space ∈ declarations, isPrefixName space.name.toList)
    (hss : ∀ s ∈ ss, s.isSpellable) {space : Namespace}
    (h : space ∈ mistakes usesKeyword declarations ss) : space.isSpellable := by
  obtain ⟨s, hs, hmistaken⟩ := List.mem_filterMap.1 h
  refine isSpellable_of_mistaken ?_ (hss s (Statement.mem_sort.1 (mem_of_openers hs))) hmistaken
  intro space hspace
  obtain ⟨space', hspace', hname⟩ := List.mem_map.1 (mem_names_inForce hspace)
  rw [← hname]
  exact hnames space' hspace'

/-! ## What is announced of what was written -/

section

variable {base : Option Iri} {layout : Layout} (hindent : isBlankText layout.indent)
  {declarations : List Namespace} {ss : List Statement}
  (hdeclarations : ∀ space ∈ declarations, IsReadable base space)
  (hss : ∀ s ∈ ss, s.isSpellable) {w : Writer}
  (hall : Entry.writeAll (canonicalEntries declarations ss) (.start .unlimited layout) = .ok () w)
  (hscheme : ∀ space ∈ declarations, hasScheme space.iri)
include hindent hdeclarations hss hall

/-- Writing a canonical document again, from what is announced of it, gives the same text just if
none of its lines is mistaken: whatever else is announced, it is written behind the declarations. -/
theorem exists_writeAll_again_iff {out : String} (hcontents : w.device.contents = encode out) :
    (∃ w', Entry.writeAll
          (canonicalEntries (declarations ++ mistakes layout.usesKeyword declarations ss)
            (Statement.sort ss)) (.start .unlimited layout) = .ok () w'
        ∧ decodeLossy w'.device.contents = out)
      ↔ mistakes layout.usesKeyword declarations ss = [] := by
  have hreadable : ∀ space ∈ declarations ++ mistakes layout.usesKeyword declarations ss,
      IsReadable base space := by
    intro space hspace
    rcases List.mem_append.1 hspace with hspace | hspace
    · exact hdeclarations space hspace
    · exact isReadable_of_isSpellable
        (isSpellable_of_mem_mistakes (fun space h => (hdeclarations space h).1) hss hspace) base
  constructor
  · rintro ⟨w', hall', hdecode⟩
    rw [canonicalEntries, Statement.sort_sort, ← canonicalEntries] at hall'
    have hstart : IsRead (fun _ => "") base (.start .unlimited layout) [] :=
      .inl (isClosed_start hindent)
    obtain ⟨w'', text, hall'', htext, -⟩ :=
      hstart.writeAll (canonicalEntries_writable hreadable hss)
    rw [hall'] at hall''
    cases hall''
    rw [htext, decodeLossy_encode] at hdecode
    cases declarations with
    | nil => exact mistakes_nil _ hss
    | cons space rest =>
      refine eq_nil_of_writeAll (List.cons_ne_nil space rest) ?_ hall hall' ?_
      · exact fun s hs => hss s (Statement.mem_sort.1 hs)
      · rw [htext, hcontents, hdecode]
  · intro hmistakes
    refine ⟨w, ?_, by rw [hcontents, decodeLossy_encode]⟩
    rw [hmistakes, List.append_nil, canonicalEntries, Statement.sort_sort]
    exact hall

include hscheme

/-- A canonical document announces the declarations that it was written from, and what its lines are
mistaken for. -/
theorem declarationsOf_writeAll (labels : Nat → String) (warnsUnused : Bool) :
    declarationsOf (readAll labels base warnsUnused w.device.contents)
      = declarations ++ mistakes layout.usesKeyword declarations ss := by
  have hfound := spaces_writeAll hindent (canonicalEntries_writable hdeclarations hss) hall
  rw [canonicalEntries, found_declarations, found_statements, Directive.map_space_scan, ← inForce,
    ← mistakes] at hfound
  rw [← hfound]
  apply declarationsOf_readAll_of_hasScheme
  rw [hfound]
  intro space hspace
  rcases List.mem_append.1 hspace with hspace | hspace
  · exact hscheme space hspace
  · have hspellable := isSpellable_of_mem_mistakes (fun space h => (hdeclarations space h).1) hss hspace
    rw [Namespace.isSpellable, Bool.and_eq_true] at hspellable
    obtain ⟨i, hi⟩ := exists_of_isIri hspellable.2
    exact hasScheme_of_parse hi

end

/-! ## Formatting again -/

section

variable {labels : Nat → String} (hlabels : ∀ n, isLabel (labels n).toList)
  {settings : FormatSettings} (hindent : isBlankText settings.indent) {text out : String}
  (hout : canonicalText? labels settings text = .ok (some out)) {base : Option Iri}
  (hbase : settings.options.base? = .ok base)
  (hwritable : IsWritable base (readAll labels base false (encode text)))

variable (hscheme : ∀ space ∈ declarationsOf (readAll labels base false (encode text)),
    hasScheme space.iri)
include hlabels hindent hout hbase hwritable hscheme

/-- A canonical text is canonical just if it is not mistaken. -/
theorem canonicalText?_canonicalText_iff (labels' : Nat → String) :
    canonicalText? labels' settings out = .ok (some out) ↔
      mistakes settings.usesTypeKeyword (declarationsOf (readAll labels base false (encode text)))
        (statementsOf (readAll labels base false (encode text))) = [] := by
  obtain ⟨w, hall, hcontents, hread⟩ :=
    exists_of_canonicalText hlabels hindent hout hbase hwritable
  obtain ⟨hproblems, hstatements⟩ := hread labels'
  have hss : ∀ s ∈ statementsOf (readAll labels base false (encode text)), s.isSpellable :=
    fun s hs => hwritable.entries hlabels (.statement s)
      (List.mem_append_right _ (List.mem_map_of_mem (Statement.mem_sort.2 hs)))
  have hfound := declarationsOf_writeAll hindent hwritable.declarations hss hall hscheme labels' false
  rw [hcontents] at hfound
  rw [canonicalText?_eq_some_iff,
    ← exists_writeAll_again_iff hindent hwritable.declarations hss hall hcontents]
  constructor
  · rintro ⟨base', w', hsame, -, hall', hdecode⟩
    rw [hbase] at hsame
    cases hsame
    rw [hfound, hstatements] at hall'
    exact ⟨w', hall', hdecode⟩
  · rintro ⟨w', hall', hdecode⟩
    rw [← hfound, ← hstatements] at hall'
    refine ⟨base, w', hbase, ?_, hall', hdecode⟩
    rw [hproblems]
    exact List.forall_mem_nil _

end

/-- A canonical text none of whose lines could be taken for a directive. -/
theorem canonicalText?_canonicalText_anonymous :
    canonicalText? (fun _ => "g") {} "@prefix ex: <http://e/> .\n\n_:f a ex:C .\n"
      = .ok (some "@prefix ex: <http://e/> .\n\n_:f a ex:C .\n") :=
  (canonicalText?_canonicalText_iff (fun _ => rfl) (by decide) canonicalText?_anonymous rfl
    isWritable_anonymous (by decide +kernel) (fun _ => "g")).2 (by decide +kernel)

/-- The label of the line ends like a keyword, and the line is taken for a directive. -/
theorem canonicalText?_canonicalText_label :
    canonicalText? (fun _ => "f") {}
        "@prefix ex: <http://e/> .\n_:a.prefix <http://e/> <http://o/> .\n"
      = .ok (some "@prefix ex: <http://e/> .\n\n_:a.prefix ex: <http://o/> .\n")
    ∧ canonicalText? (fun _ => "f") {}
        "@prefix ex: <http://e/> .\n\n_:a.prefix ex: <http://o/> .\n"
      = .ok (some ("@prefix ex: <http://e/> .\n@prefix ex: <http://o/> .\n\n"
        ++ "_:a.prefix <http://e/> ex: .\n")) :=
  ⟨eq_ok_of_toOption (by decide +kernel), eq_ok_of_toOption (by decide +kernel)⟩

end TidyTrig
