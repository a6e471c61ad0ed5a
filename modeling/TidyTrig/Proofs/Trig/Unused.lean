import Mathlib.Data.List.Forall2
import TidyTrig.Proofs.Trig.Interleaving
import TidyTrig.Proofs.Trig.Mentions
import TidyTrig.Proofs.Trig.Source

/-!
# Warnings of unused prefixes

Asking for warnings of unused prefixes adds one block to what is yielded of a document, right before
its end, and changes nothing else (`yields_warnings`). There is one warning for each namespace that
was declared and that no IRI of a statement starts with, in the order in which they were declared
first, on the line of the directive that did it.

What was declared is kept as pairs of a namespace and a line. `find?_of_mem_eraseDupsBy` says that
erasing repetitions by namespace keeps the first line of each.

A prefix that some name uses is not warned of (`yields_used`), as the IRI that the name stands for gets
into a statement and starts with the namespace. This takes that the directive was announced with what
the parser makes of its IRI (`yields_used_escape` is a directive that is not), and that the name is not
written for the datatype of a plain string.
-/

namespace TidyTrig.Trig

open Utf8 (byte)

/-! ## Without repetitions -/

/-- What erases elements one by one from what follows them is followed by this induction. -/
theorem filter_induction {α : Type} {motive : List α → Prop} (nil : motive [])
    (cons : ∀ a rest, (∀ p : α → Bool, motive (rest.filter p)) → motive (a :: rest))
    (l : List α) : motive l := by
  induction hn : l.length using Nat.strongRecOn generalizing l with
  | _ n ih =>
    cases l with
    | nil => exact nil
    | cons a rest =>
      apply cons
      intro p
      have hle : (rest.filter p).length ≤ rest.length := List.length_filter_le _ _
      exact ih _ (hn ▸ Nat.lt_succ_of_le hle) _ rfl

section

variable {α β : Type} [DecidableEq α]

theorem eraseDups_filter (p : α → Bool) (l : List α) :
    (l.filter p).eraseDups = l.eraseDups.filter p := by
  induction l using filter_induction with
  | nil => rfl
  | cons a rest ih =>
    rw [List.eraseDups_cons]
    cases hp : p a with
    | true =>
      rw [List.filter_cons_of_pos hp, List.filter_cons_of_pos hp, List.eraseDups_cons, ← ih,
        List.filter_filter, List.filter_filter]
      simp only [Bool.and_comm]
    | false =>
      -- What follows the element that goes has none like it.
      rw [List.filter_cons_of_neg (by simp [hp]), List.filter_cons_of_neg (by simp [hp]), ← ih,
        List.filter_filter]
      congr 1
      apply List.filter_congr
      intro b _
      by_cases hb : b = a <;> simp [hb, hp]

theorem map_fst_eraseDupsBy (l : List (α × β)) :
    (l.eraseDupsBy fun a b => a.1 = b.1).map Prod.fst = (l.map Prod.fst).eraseDups := by
  induction l using filter_induction with
  | nil => rfl
  | cons q rest ih =>
    rw [List.eraseDupsBy_cons, List.map_cons, ih, List.map_cons, List.eraseDups_cons,
      List.filter_map]
    congr 3
    apply List.filter_congr
    intro b _
    by_cases hb : b.1 = q.1 <;> simp [hb]

/-- Of the pairs with one key the first is kept. -/
theorem find?_of_mem_eraseDupsBy {l : List (α × β)} {p : α × β}
    (h : p ∈ l.eraseDupsBy fun a b => a.1 = b.1) : l.find? (fun b => b.1 = p.1) = some p := by
  induction l using filter_induction with
  | nil => cases h
  | cons q rest ih =>
    rw [List.eraseDupsBy_cons] at h
    rcases List.mem_cons.1 h with rfl | h
    · exact List.find?_cons_of_pos (by simp)
    · have hfound := ih _ h
      have hne : p.1 ≠ q.1 := by
        have hmem := List.mem_of_find?_eq_some hfound
        simpa using (List.mem_filter.1 hmem).2
      rw [List.find?_cons_of_neg (by simpa using hne.symm), ← hfound, List.find?_filter]
      congr 1
      funext b
      by_cases hb : b.1 = p.1 <;> simp [hb, hne]

/-- What is found under a key stands where the key stands first. -/
theorem getElem?_idxOf_of_find? {keys : List α} {values : List β} {p : α × β}
    (h : (keys.zip values).find? (fun b => b.1 = p.1) = some p) :
    values[keys.idxOf p.1]? = some p.2 := by
  induction keys generalizing values with
  | nil => cases h
  | cons key keys ih =>
    cases values with
    | nil => cases h
    | cons value values =>
      rw [List.zip_cons_cons, List.find?_cons] at h
      by_cases hkey : key = p.1
      · simp only [hkey, decide_true, Option.some.injEq] at h
        rw [hkey, List.idxOf_cons_self, List.getElem?_cons_zero]
        exact congrArg (fun q => some q.2) h
      · simp only [hkey, decide_false] at h
        rw [List.idxOf_cons, beq_eq_false_iff_ne.2 hkey, cond_false, List.getElem?_cons_succ, ih h]

end

/-! ## The block of warnings -/

variable (labels : Nat → String)

/-- Whether no IRI that some statements mention starts with a namespace. -/
def isIdle (ss : List Statement) (space : Namespace) : Bool :=
  ss.all fun s => s.iris.all fun iri => !space.iri.toList.isPrefixOf iri.toList

theorem isIdle_iff {ss : List Statement} {space : Namespace} :
    isIdle ss space ↔ ∀ s ∈ ss, ∀ iri ∈ s.iris, ¬ space.iri.toList <+: iri.toList := by
  simp only [isIdle, List.all_eq_true, Bool.not_eq_true', ← List.isPrefixOf_iff_prefix,
    Bool.not_eq_true]

theorem mentioned_eq (events : List Event) :
    mentioned events = (statementsOf events).flatMap Statement.iris := by
  induction events with
  | nil => rfl
  | cons e rest ih =>
    rw [statementsOf_cons, List.flatMap_append, ← ih]
    cases e <;> simp [mentioned, Event.statement?]

/-- A warning of a namespace on the line of the directive that declared it first. -/
def WarnsOf (bytes : Bytes) (spaces : List Namespace) (space : Namespace) (e : Event) : Prop :=
  ∃ d, (Directive.scan bytes)[spaces.idxOf space]? = some d
    ∧ e = .problem ⟨.warning, "Unused prefix '" ++ space.name ++ ":'",
        ((bytes.take d.start).count (byte '\n') + 1 : Nat), -1⟩

/-- Declared namespaces are warned of if they are idle, each once. -/
theorem warnsOf_unused {bytes : Bytes} {events : List Event}
    (h : (declarationsOf events).length = (Directive.scan bytes).length) :
    List.Forall₂ (WarnsOf bytes (declarationsOf events))
      ((declarationsOf events).eraseDups.filter (isIdle (statementsOf events)))
      (unused (declared bytes (Directive.scan bytes) events) (mentioned events)) := by
  have hidle : ∀ space : Namespace,
      (!((mentioned events).map String.toList).any (space.iri.toList.isPrefixOf ·))
        = isIdle (statementsOf events) space := by
    intro space
    rw [mentioned_eq, isIdle, List.any_map, List.any_flatMap, List.not_any_eq_all_not]
    congr 1
    funext s
    rw [List.not_any_eq_all_not]
    rfl
  have hdeclared : declared bytes (Directive.scan bytes) events
      = (declarationsOf events).zip ((Directive.scan bytes).map fun d => lineOf bytes d.start) := rfl
  unfold unused
  simp only [hidle, hdeclared]
  generalize hpairs : (declarationsOf events).zip ((Directive.scan bytes).map
    fun d => lineOf bytes d.start) = pairs
  have hkeys : pairs.map Prod.fst = declarationsOf events := by
    rw [← hpairs]
    exact List.map_fst_zip (by simp [h])
  rw [← eraseDups_filter, ← hkeys, List.filter_map, ← map_fst_eraseDupsBy, hkeys,
    List.forall₂_map_left_iff, List.forall₂_map_right_iff]
  refine List.forall₂_same.2 ?_
  intro p hp
  -- The first pair of an idle namespace is the first of all pairs of that namespace.
  have hfound := find?_of_mem_eraseDupsBy hp
  have hpidle : isIdle (statementsOf events) p.1 :=
    (List.mem_filter.1 (List.mem_of_find?_eq_some hfound)).2
  have hfirst : pairs.find? (fun b => b.1 = p.1) = some p := by
    rw [← hfound, List.find?_filter]
    congr 1
    funext b
    by_cases hb : b.1 = p.1 <;> simp [hb, hpidle]
  rw [← hpairs] at hfirst
  have hline := getElem?_idxOf_of_find? hfirst
  rw [List.getElem?_map, Option.map_eq_some_iff] at hline
  obtain ⟨d, hd, hline⟩ := hline
  exact ⟨d, hd, by rw [← hline]; rfl⟩

/-- The declarations are those of the directives that a scan finds, in its order, each made when the
parser was given the document up to the end of the directive. -/
theorem declarationsOf_front (base : Option Iri) (bytes : Bytes) :
    declarationsOf (readFrom labels (.start base) 0 bytes (Directive.scan bytes))
      = (Directive.scan bytes).map fun d => d.announce (readFront labels base bytes d.stop).2 :=
  declarationsOf_readFrom labels (.start base) bytes (fun d _ => Nat.zero_le d.stop)
    (Directive.pairwise_scanFrom none 0 bytes)

/-- What is told of a document without warnings, and the block of warnings that asking for them adds
right before the end. -/
theorem exists_front (base : Option Iri) (bytes : Bytes) :
    ∃ front warnings,
      readAll labels base false bytes = front ++ [.finished]
        ∧ readAll labels base true bytes = front ++ warnings ++ [.finished]
        ∧ declarationsOf front
          = (Directive.scan bytes).map (fun d => d.announce (readFront labels base bytes d.stop).2)
        ∧ List.Forall₂ (WarnsOf bytes (declarationsOf front))
          ((declarationsOf front).eraseDups.filter (isIdle (statementsOf front))) warnings := by
  generalize hevents : readFrom labels (.start base) 0 bytes (Directive.scan bytes) = events
  refine ⟨events ++ undecodable bytes events,
    unused (declared bytes (Directive.scan bytes) events) (mentioned events), ?_, ?_, ?_⟩
  · unfold readAll
    dsimp only
    rw [hevents, if_neg Bool.false_ne_true, List.append_nil]
  · unfold readAll
    dsimp only
    rw [hevents, if_pos rfl]
  · -- What the document as a whole is faulted for declares nothing and states nothing.
    have hdeclarations : declarationsOf (events ++ undecodable bytes events)
        = declarationsOf events := by
      rw [declarationsOf_append, declarationsOf_of_problems fun _ => exists_of_mem_undecodable,
        List.append_nil]
    have hstatements : statementsOf (events ++ undecodable bytes events) = statementsOf events := by
      rw [statementsOf_append, statementsOf_of_problems fun _ => exists_of_mem_undecodable,
        List.append_nil]
    have hfront := declarationsOf_front labels base bytes
    rw [hevents] at hfront
    rw [hdeclarations, hstatements]
    exact ⟨hfront, warnsOf_unused (by rw [hfront, List.length_map])⟩

/-- Asking for warnings adds them right before the end, and changes nothing else. They are of the
namespaces that some directive declared and that no IRI of a statement starts with, each once, in the
order in which they were declared first, on the line of the directive that did it. -/
theorem yields_warnings {o : Options} {base : Option Iri} (hbase : o.base? = .ok base)
    (bytes : Bytes) :
    ∃ front warnings,
      Yields labels { o with warnsUnused := false, maxProblems := none } bytes
          (front ++ [.finished])
        ∧ Yields labels { o with warnsUnused := true, maxProblems := none } bytes
          (front ++ warnings ++ [.finished])
        ∧ declarationsOf front
          = (Directive.scan bytes).map (fun d => d.announce (readFront labels base bytes d.stop).2)
        ∧ List.Forall₂ (WarnsOf bytes (declarationsOf front))
          ((declarationsOf front).eraseDups.filter fun space =>
            ∀ s ∈ statementsOf front, ∀ iri ∈ s.iris, ¬ space.iri.toList <+: iri.toList)
          warnings := by
  obtain ⟨front, warnings, hplain, hwarned, hfront, hwarns⟩ := exists_front labels base bytes
  refine ⟨front, warnings, hplain ▸ yields_readAll labels hbase false bytes,
    hwarned ▸ yields_readAll labels hbase true bytes, hfront, ?_⟩
  have hidle : isIdle (statementsOf front) = fun space =>
      decide (∀ s ∈ statementsOf front, ∀ iri ∈ s.iris, ¬ space.iri.toList <+: iri.toList) := by
    funext space
    rw [Bool.eq_iff_iff, isIdle_iff, decide_eq_true_iff]
  rwa [hidle] at hwarns

/-- A name is bound three times, twice alike. What it stood for first is used, so the other meaning is
warned of, where it was declared first. -/
theorem yields_warnings_rebound :
    (Options.base? ⟨some "http://b/", false, some 0⟩).toOption.isSome
      ∧ ∃ front, Yields (fun _ => "f") ⟨some "http://b/", true, none⟩
          (Utf8.encode "@prefix p: <u> .\n@prefix p: <w> .\n<s> <u> 1 .\nPREFIX p: <w>\n")
        (front ++ [.problem ⟨.warning, "Unused prefix 'p:'", 2, -1⟩] ++ [.finished]) := by
  have hsome : (Options.base? ⟨some "http://b/", false, some 0⟩).toOption.isSome := by
    decide +kernel
  obtain ⟨base, hbase⟩ := Option.isSome_iff_exists.1 hsome
  obtain ⟨front, warnings, ⟨hread, -⟩, hwarned, -, hwarns⟩ := yields_warnings (fun _ => "f")
    (eq_ok_of_toOption hbase)
    (Utf8.encode "@prefix p: <u> .\n@prefix p: <w> .\n<s> <u> 1 .\nPREFIX p: <w>\n")
  have hlists : (read (fun _ => "f") ⟨some "http://b/", false, none⟩
      (Utf8.encode "@prefix p: <u> .\n@prefix p: <w> .\n<s> <u> 1 .\nPREFIX p: <w>\n")).toOption.map
        (fun events => (declarationsOf events, statementsOf events))
      = some ([⟨"p", "http://b/u"⟩, ⟨"p", "http://b/w"⟩, ⟨"p", "http://b/w"⟩],
        [⟨none, .iri "http://b/s", .iri "http://b/u", .literal (.typed "1" (xsd "integer")
          (by decide))⟩]) := by
    decide +kernel
  rw [hread] at hlists
  obtain ⟨hdeclarations, hstatements⟩ := Prod.mk.inj (Option.some.inj hlists)
  rw [declarationsOf_append] at hdeclarations
  rw [statementsOf_append] at hstatements
  change declarationsOf front ++ [] = _ at hdeclarations
  change statementsOf front ++ [] = _ at hstatements
  rw [List.append_nil] at hdeclarations hstatements
  rw [hdeclarations, hstatements] at hwarns
  -- The second meaning alone is idle.
  rw [show List.filter _ (List.eraseDups _) = [⟨"p", "http://b/w"⟩] by decide +kernel] at hwarns
  obtain ⟨e, rest, ⟨d, hd, rfl⟩, hrest, rfl⟩ := List.forall₂_cons_left_iff.1 hwarns
  cases hrest
  rw [show List.idxOf _ _ = 1 by decide +kernel] at hd
  have hline : ((Directive.scan (Utf8.encode
      "@prefix p: <u> .\n@prefix p: <w> .\n<s> <u> 1 .\nPREFIX p: <w>\n"))[1]?).map (fun d =>
        lineOf (Utf8.encode "@prefix p: <u> .\n@prefix p: <w> .\n<s> <u> 1 .\nPREFIX p: <w>\n")
          d.start) = some 2 := by
    decide +kernel
  rw [hd] at hline
  rw [show List.count _ _ + 1 = 2 from Option.some.inj hline] at hwarned
  exact ⟨hsome, front, hwarned⟩

/-! ## Prefixes that are used -/

/-- A name that is expanded stands for what it is bound to and its local part. -/
theorem Recognition.expand_eq {r : Recognition} {name localPart iri : String} {isDoubtful : Bool}
    {space : Iri} (hbound : r.space? name = some space)
    (h : r.expand name localPart isDoubtful = .ok iri) : iri = space.text ++ localPart := by
  unfold expand at h
  rw [hbound] at h
  dsimp only at h
  split at h
  · split at h
    · cases h
      rfl
    · cases h
  · cases h
    rfl

/-- A use of a prefix: with its `n`-th token, the parser comes to a name outside of directives and
expands it to an IRI by what the prefix is bound to. -/
structure IsUse (p : Parser) (n : Nat) (name : String) (space : Iri) (iri : String)
    (r : Recognition) : Prop where
  expands : ∃ localPart isDoubtful, p.token? labels n = some (r, .name name localPart isDoubtful)
    ∧ r.expand name localPart isDoubtful = .ok iri
  bound : r.space? name = some space
  isOutside : ∀ goal ∈ r.goals, goal.isForDirective = false
  /-- The name of a block is a term if some statement is in the block. -/
  graph : (.graphName ∈ r.goals ∨ ∃ r', p.token? labels (n + 1) = some (r', .mark .openBrace)
      ∧ r'.goals = [.blockOrPredicates (.iri iri), .document]) →
    ∃ s ∈ statementsOf (p.close labels), s.graph = some (.iri iri)

namespace IsUse

variable {labels} {p : Parser} {n : Nat} {name : String} {space : Iri} {iri : String}
  {r : Recognition}

theorem starts (h : IsUse labels p n name space iri r) : space.text.toList <+: iri.toList := by
  obtain ⟨localPart, isDoubtful, -, hexpand⟩ := h.expands
  rw [Recognition.expand_eq h.bound hexpand, String.toList_append]
  exact List.prefix_append _ _

/-- In a document without faults, the IRI is mentioned. -/
theorem states (h : IsUse labels p n name space iri r) (hstart : p.recognition.goals = [.document])
    (hclean : problemsOf (p.close labels) = [])
    (hdatatype : ∀ value, .literalDatatype value ∈ r.goals → iri ≠ xsdString) :
    p.States labels iri := by
  have hgraph : (∃ s ∈ statementsOf (p.close labels), s.graph = some (.iri iri)) →
      p.States labels iri := by
    rintro ⟨s, hs, hname⟩
    refine ⟨s, hs, ?_⟩
    simp [Statement.iris, Statement.terms, hname, Term.mentioned?]
  obtain ⟨localPart, isDoubtful, htoken, hexpand⟩ := h.expands
  by_cases hname : .graphName ∈ r.goals
  · exact hgraph (h.graph (.inl hname))
  · have hterm : Recognition.IsTerm iri r (.name name localPart isDoubtful) r.goals := by
      refine ⟨congrArg some hexpand, ?_⟩
      intro goal hgoal
      have houtside := h.isOutside goal hgoal
      cases goal with
      | graphName => exact absurd hgoal hname
      | literalDatatype value => exact decide_eq_true (hdatatype value hgoal)
      | _ => exact congrArg not houtside
    have hp : p.recognition.IsAwaiting [] := by
      rw [Recognition.IsAwaiting, hstart]
      exact .between .document
    exact (Parser.states_of_token? htoken hp hclean hterm).elim id fun hopen =>
      hgraph (h.graph (.inr hopen))

/-- A name that is expanded is a use if it stands outside of directives and before no block. -/
theorem exists_of_token? {text localPart : String} {isDoubtful : Bool} {goals : List Goal}
    (htext : (Iri.parse text).toOption.isSome)
    (htoken : (p.token? labels n).map (fun q =>
      (q.2, q.1.space? name, (q.1.expand name localPart isDoubtful).toOption, q.1.goals))
        = some (.name name localPart isDoubtful, (Iri.parse text).toOption, some iri, goals))
    (houtside : ∀ goal ∈ goals, goal.isForDirective = false) (hgraph : .graphName ∉ goals)
    (hnext : (p.token? labels (n + 1)).map Prod.snd ≠ some (.mark .openBrace)) :
    ∃ space r, (Iri.parse text).toOption = some space ∧ space.text = text
      ∧ IsUse labels p n name space iri r := by
  obtain ⟨space, hspace⟩ := Option.isSome_iff_exists.1 htext
  obtain ⟨⟨r, t⟩, hr, hsame⟩ := Option.map_eq_some_iff.1 htoken
  obtain ⟨rfl, hbound, hexpand, rfl⟩ : t = _ ∧ _ ∧ _ ∧ _ := by simpa using hsame
  refine ⟨space, r, hspace, Iri.text_of_parse (eq_ok_of_toOption hspace),
    ⟨localPart, isDoubtful, hr, eq_ok_of_toOption hexpand⟩, hbound.trans hspace, houtside, ?_⟩
  rintro (hname | ⟨r', hopen, -⟩)
  · exact absurd hname hgraph
  · rw [hopen] at hnext
    exact absurd rfl hnext

end IsUse

/-- In a document without faults, a prefix that is used is not warned of, under any limit. The warnings
are of `spaces`, and what the directive announced is none of them. That is what the parser bound the
prefix to, which takes that an IRI with a scheme was announced as the parser reads it. -/
theorem yields_used {o : Options} {base : Option Iri} (hbase : o.base? = .ok base) {bytes : Bytes}
    (hclean : parserErrors labels base bytes = []) {d : Directive} (hd : d ∈ Directive.scan bytes)
    {space : Iri} (hbound : (readFront labels base bytes d.stop).2.space? d.name = some space)
    (hwritten : hasScheme d.iri → d.iri = space.text)
    {n : Nat} {iri : String} {r : Recognition}
    (huse : IsUse labels ((Parser.start base).feed bytes) n d.name space iri r)
    (hdatatype : ∀ value, .literalDatatype value ∈ r.goals → iri ≠ xsdString) :
    ∃ front spaces warnings,
      Yields labels { o with warnsUnused := true, maxProblems := none } bytes
          (front ++ warnings ++ [.finished])
        ∧ (∀ p ∈ problemsOf front, p.kind = .error)
        ∧ List.Forall₂ (WarnsOf bytes (declarationsOf front)) spaces warnings
        ∧ ⟨d.name, space.text⟩ ∈ declarationsOf front ∧ ⟨d.name, space.text⟩ ∉ spaces
        ∧ ∀ max, ∃ kept last,
          Yields labels { o with warnsUnused := true, maxProblems := some max } bytes
            (kept ++ [last])
          ∧ kept <+: front ++ warnings ∧ last.isEnd := by
  obtain ⟨front, warnings, hplain, hwarned, hfront, hwarns⟩ := exists_front labels base bytes
  have hdeclared : ⟨d.name, space.text⟩ ∈ declarationsOf front := by
    rw [hfront]
    refine List.mem_map.2 ⟨d, hd, ?_⟩
    unfold Directive.announce
    split
    · next hscheme => rw [hwritten hscheme]
    · rw [hbound]
  have hstated := huse.states rfl hclean hdatatype
  refine ⟨front, _, warnings, hwarned ▸ yields_readAll labels hbase true bytes, ?_, hwarns,
    hdeclared, ?_, ?_⟩
  · have hproblems := problemsOf_readAll_eq_errors labels base bytes
    rw [hplain, problemsOf_append, hclean] at hproblems
    intro p hp
    have hlate : p ∈ [] ++ lateErrors bytes [] := hproblems ▸ List.mem_append_left _ hp
    exact kind_of_mem_lateErrors hlate
  · -- An idle namespace would start no stated IRI, but it starts this one.
    intro hidle
    obtain ⟨s, hs, hiri⟩ := hstated
    rw [← statementsOf_readAll labels base false bytes, hplain, statementsOf_append] at hs
    have hs : s ∈ statementsOf front := by simpa [Event.statement?] using hs
    exact isIdle_iff.1 (List.mem_filter.1 hidle).2 s hs iri hiri huse.starts
  · intro max
    have hlimited := yields_limitProblems labels hbase true bytes max
    have hcuts := limitProblems_cuts (front ++ warnings) [.finished] rfl max max
    rw [← hwarned] at hcuts
    split at hcuts
    · exact ⟨front ++ warnings, .finished, hwarned ▸ hcuts ▸ hlimited, List.prefix_rfl, rfl⟩
    · obtain ⟨kept, p, rest, hsplit, -, hlimit⟩ := hcuts
      exact ⟨kept, _, hlimit ▸ hlimited, hsplit ▸ List.prefix_append _ _, rfl⟩

/-- A prefix is used for a datatype, and another one is not used. -/
theorem yields_used_datatype :
    ∃ space r, IsUse (fun _ => "f") ((Parser.start none).feed (Utf8.encode
          "@prefix p: <http://e/#> .\n@prefix q: <http://u/> .\n<http://e/s> a \"1\"^^p:d .\n"))
        12 "p" space "http://e/#d" r
      ∧ ∃ front spaces warnings,
        Yields (fun _ => "f") ⟨none, true, none⟩ (Utf8.encode
          "@prefix p: <http://e/#> .\n@prefix q: <http://u/> .\n<http://e/s> a \"1\"^^p:d .\n")
          (front ++ warnings ++ [.finished])
        ∧ List.Forall₂ (WarnsOf (Utf8.encode
          "@prefix p: <http://e/#> .\n@prefix q: <http://u/> .\n<http://e/s> a \"1\"^^p:d .\n")
          (declarationsOf front)) spaces warnings
        ∧ ⟨"p", "http://e/#"⟩ ∈ declarationsOf front ∧ ⟨"p", "http://e/#"⟩ ∉ spaces := by
  generalize hbytes : Utf8.encode
    "@prefix p: <http://e/#> .\n@prefix q: <http://u/> .\n<http://e/s> a \"1\"^^p:d .\n" = bytes
  have hclean : parserErrors (fun _ => "f") none bytes = [] := by
    subst hbytes
    decide +kernel
  have hd : ⟨"p", "http://e/#", 0, 26⟩ ∈ Directive.scan bytes := by
    subst hbytes
    decide +kernel
  have hbound : (readFront (fun _ => "f") none bytes 26).2.space? "p"
      = (Iri.parse "http://e/#").toOption := by
    subst hbytes
    decide +kernel
  have htoken : (((Parser.start none).feed bytes).token? (fun _ => "f") 12).map (fun q =>
      (q.2, q.1.space? "p", (q.1.expand "p" "d" false).toOption, q.1.goals))
      = some (.name "p" "d" false, (Iri.parse "http://e/#").toOption, some "http://e/#d",
        [.literalDatatype "1", .objectsEnd, .predicatesEnd, .dot, .document]) := by
    subst hbytes
    decide +kernel
  have hnext : (((Parser.start none).feed bytes).token? (fun _ => "f") 13).map Prod.snd
      = some (.mark .dot) := by
    subst hbytes
    decide +kernel
  obtain ⟨space, r, hspace, htext, huse⟩ := IsUse.exists_of_token? (by decide +kernel) htoken
    (by decide) (by decide) (hnext ▸ by decide)
  obtain ⟨front, spaces, warnings, hyields, -, hwarns, hdeclared, hused, -⟩ :=
    yields_used (fun _ => "f") (show Options.base? ⟨none, true, none⟩ = .ok none from rfl) hclean hd
      (hbound.trans hspace) (fun _ => htext.symm) huse (fun _ _ => by decide)
  rw [htext] at hdeclared hused
  exact ⟨space, r, huse, front, spaces, warnings, hyields, hwarns, hdeclared, hused⟩

/-- The directive is announced as it is written, with an escape. The parser reads the escape, so no
IRI starts with what was announced, and the prefix is warned of though all names use it. -/
theorem yields_used_escape :
    ∃ space r, ⟨"ex", "http://e/\\u0061/", 0, 33⟩ ∈ Directive.scan (Utf8.encode
          "@prefix ex: <http://e/\\u0061/> .\nex:x ex:y ex:z .\n")
      ∧ (readFront (fun _ => "f") none (Utf8.encode
          "@prefix ex: <http://e/\\u0061/> .\nex:x ex:y ex:z .\n") 33).2.space? "ex" = some space
      ∧ IsUse (fun _ => "f") ((Parser.start none).feed (Utf8.encode
          "@prefix ex: <http://e/\\u0061/> .\nex:x ex:y ex:z .\n")) 5 "ex" space "http://e/a/y" r
      ∧ Yields (fun _ => "f") ⟨none, true, none⟩ (Utf8.encode
          "@prefix ex: <http://e/\\u0061/> .\nex:x ex:y ex:z .\n")
        [.declaration ⟨"ex", "http://e/\\u0061/"⟩,
          .statement ⟨none, .iri "http://e/a/x", .iri "http://e/a/y", .iri "http://e/a/z"⟩,
          .problem ⟨.warning, "Unused prefix 'ex:'", 1, -1⟩, .finished] := by
  generalize hbytes : Utf8.encode "@prefix ex: <http://e/\\u0061/> .\nex:x ex:y ex:z .\n" = bytes
  have hd : ⟨"ex", "http://e/\\u0061/", 0, 33⟩ ∈ Directive.scan bytes := by
    subst hbytes
    decide +kernel
  have hbound : (readFront (fun _ => "f") none bytes 33).2.space? "ex"
      = (Iri.parse "http://e/a/").toOption := by
    subst hbytes
    decide +kernel
  have htoken : (((Parser.start none).feed bytes).token? (fun _ => "f") 5).map (fun q =>
      (q.2, q.1.space? "ex", (q.1.expand "ex" "y" false).toOption, q.1.goals))
      = some (.name "ex" "y" false, (Iri.parse "http://e/a/").toOption, some "http://e/a/y",
        [.blockOrPredicates (.iri "http://e/a/x"), .document]) := by
    subst hbytes
    decide +kernel
  have hnext : (((Parser.start none).feed bytes).token? (fun _ => "f") 6).map Prod.snd
      = some (.name "ex" "z" false) := by
    subst hbytes
    decide +kernel
  have hread : readAll (fun _ => "f") none true bytes
      = [.declaration ⟨"ex", "http://e/\\u0061/"⟩,
          .statement ⟨none, .iri "http://e/a/x", .iri "http://e/a/y", .iri "http://e/a/z"⟩,
          .problem ⟨.warning, "Unused prefix 'ex:'", 1, -1⟩, .finished] := by
    subst hbytes
    decide +kernel
  obtain ⟨space, r, hspace, -, huse⟩ := IsUse.exists_of_token? (by decide +kernel) htoken
    (by decide) (by decide) (hnext ▸ by decide)
  refine ⟨space, r, hd, hbound.trans hspace, huse, ?_⟩
  rw [← hread]
  exact yields_readAll (fun _ => "f") (show Options.base? ⟨none, true, none⟩ = .ok none from rfl) true
    bytes

/-- The datatype of plain strings is not stated, so a use for it does not count. -/
example : readAll (fun _ => "f") none true (Utf8.encode
      "@prefix xsd: <http://www.w3.org/2001/XMLSchema#> .\n<s:s> <s:p> \"v\"^^xsd:string .\n")
    = [.declaration ⟨"xsd", "http://www.w3.org/2001/XMLSchema#"⟩,
      .statement ⟨none, .iri "s:s", .iri "s:p", .literal (.simple "v")⟩,
      .problem ⟨.warning, "Unused prefix 'xsd:'", 1, -1⟩, .finished] := by decide +kernel

end TidyTrig.Trig
