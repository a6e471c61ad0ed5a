import Mathlib.Data.List.Dedup
import TidyTrig.Proofs.Idempotence

/-!
# Blocks, paragraphs and clauses

A writer is given statements one after the other and decides for each how it is joined to the one
before. What comes of it is a text in blocks for graphs, of paragraphs for subjects, of clauses for
predicates (`writeAll_eq_documentText`). A key that turns up again after another has a second group of
its own. In canonical order equal keys stand together, and so each has one (`blocks_of_sort`).
-/

namespace TidyTrig.Trig

open Utf8 (encode)

/-! ## Grouping -/

/-- Items that have a key in common. -/
structure Group (κ ν : Type) where
  key : κ
  items : List ν
deriving DecidableEq

namespace Group

variable {κ ν : Type} [DecidableEq κ]

/-- Puts something in front of the items of a key: those of the first group if it has that key, and
none otherwise. -/
def join (key : κ) (into : List ν → List ν) : List (Group κ ν) → List (Group κ ν)
  | [] => [⟨key, into []⟩]
  | first :: rest =>
    if first.key = key then ⟨key, into first.items⟩ :: rest else ⟨key, into []⟩ :: first :: rest

variable {key : κ} {into : List ν → List ν} {first : Group κ ν} {rest : List (Group κ ν)}

theorem join_of_eq (h : first.key = key) :
    join key into (first :: rest) = ⟨key, into first.items⟩ :: rest :=
  if_pos h

theorem join_of_ne (h : first.key ≠ key) :
    join key into (first :: rest) = ⟨key, into []⟩ :: first :: rest :=
  if_neg h

theorem exists_join (key : κ) (into : List ν → List ν) (groups : List (Group κ ν)) :
    ∃ items rest, join key into groups = ⟨key, into items⟩ :: rest := by
  cases groups with
  | nil => exact ⟨[], [], rfl⟩
  | cons first rest =>
    by_cases h : first.key = key
    · exact ⟨first.items, rest, join_of_eq h⟩
    · exact ⟨[], first :: rest, join_of_ne h⟩

end Group

/-- A predicate with its objects. -/
abbrev Clause := Group Term Term

/-- A subject with what is said of it. -/
abbrev Paragraph := Group Term Clause

/-- A graph with what it says of its subjects. -/
abbrev Block := Group (Option Term) Paragraph

/-- Statements in rows of the same graph, these in rows of the same subject, and these in rows of the
same predicate. -/
def blocks : List Statement → List Block
  | [] => []
  | s :: rest =>
    Group.join s.graph (Group.join s.subject (Group.join s.predicate (s.object :: ·)))
      (blocks rest)

/-- How a statement stands in front of one that starts the blocks: with its predicate, with its
subject, with its graph, or on its own. -/
inductive Joins (s t : Statement) : List Block → List Block → Prop where
  | predicate (objects : List Term) (clauses : List Clause) (paragraphs : List Paragraph)
      (others : List Block) (hgraph : t.graph = s.graph) (hsubject : t.subject = s.subject)
      (hpredicate : t.predicate = s.predicate) :
      Joins s t
        (⟨t.graph, ⟨t.subject, ⟨t.predicate, t.object :: objects⟩ :: clauses⟩ :: paragraphs⟩ :: others)
        (⟨s.graph, ⟨s.subject, ⟨s.predicate, s.object :: t.object :: objects⟩ :: clauses⟩
          :: paragraphs⟩ :: others)
  | subject (objects : List Term) (clauses : List Clause) (paragraphs : List Paragraph)
      (others : List Block) (hgraph : t.graph = s.graph) (hsubject : t.subject = s.subject)
      (hpredicate : t.predicate ≠ s.predicate) :
      Joins s t
        (⟨t.graph, ⟨t.subject, ⟨t.predicate, t.object :: objects⟩ :: clauses⟩ :: paragraphs⟩ :: others)
        (⟨s.graph, ⟨s.subject, ⟨s.predicate, [s.object]⟩
          :: ⟨t.predicate, t.object :: objects⟩ :: clauses⟩ :: paragraphs⟩ :: others)
  | graph (objects : List Term) (clauses : List Clause) (paragraphs : List Paragraph)
      (others : List Block) (hgraph : t.graph = s.graph) (hsubject : t.subject ≠ s.subject) :
      Joins s t
        (⟨t.graph, ⟨t.subject, ⟨t.predicate, t.object :: objects⟩ :: clauses⟩ :: paragraphs⟩ :: others)
        (⟨s.graph, ⟨s.subject, [⟨s.predicate, [s.object]⟩]⟩
          :: ⟨t.subject, ⟨t.predicate, t.object :: objects⟩ :: clauses⟩ :: paragraphs⟩ :: others)
  | alone (objects : List Term) (clauses : List Clause) (paragraphs : List Paragraph)
      (others : List Block) (hgraph : t.graph ≠ s.graph) :
      Joins s t
        (⟨t.graph, ⟨t.subject, ⟨t.predicate, t.object :: objects⟩ :: clauses⟩ :: paragraphs⟩ :: others)
        (⟨s.graph, [⟨s.subject, [⟨s.predicate, [s.object]⟩]⟩]⟩
          :: ⟨t.graph, ⟨t.subject, ⟨t.predicate, t.object :: objects⟩ :: clauses⟩ :: paragraphs⟩
          :: others)

/-- The first statement stands first at each level. -/
theorem exists_blocks_cons (s : Statement) (rest : List Statement) :
    ∃ objects clauses paragraphs others, blocks (s :: rest)
      = ⟨s.graph, ⟨s.subject, ⟨s.predicate, s.object :: objects⟩ :: clauses⟩ :: paragraphs⟩
        :: others := by
  obtain ⟨inner, others, hblocks⟩ := Group.exists_join s.graph
    (Group.join s.subject (Group.join s.predicate (s.object :: ·))) (blocks rest)
  obtain ⟨inner', paragraphs, hparagraphs⟩ := Group.exists_join s.subject
    (Group.join s.predicate (s.object :: ·)) inner
  obtain ⟨objects, clauses, hclauses⟩ := Group.exists_join s.predicate (s.object :: ·) inner'
  exact ⟨objects, clauses, paragraphs, others, by rw [blocks, hblocks, hparagraphs, hclauses]⟩

theorem joins_blocks (s t : Statement) (rest : List Statement) :
    Joins s t (blocks (t :: rest)) (blocks (s :: t :: rest)) := by
  obtain ⟨objects, clauses, paragraphs, others, hblocks⟩ := exists_blocks_cons t rest
  rw [blocks.eq_def (s :: t :: rest)]
  dsimp only
  rw [hblocks]
  by_cases hgraph : t.graph = s.graph
  · rw [Group.join_of_eq hgraph]
    by_cases hsubject : t.subject = s.subject
    · rw [Group.join_of_eq hsubject]
      by_cases hpredicate : t.predicate = s.predicate
      · rw [Group.join_of_eq hpredicate]
        exact .predicate objects clauses paragraphs others hgraph hsubject hpredicate
      · rw [Group.join_of_ne hpredicate]
        exact .subject objects clauses paragraphs others hgraph hsubject hpredicate
    · rw [Group.join_of_ne hsubject]
      exact .graph objects clauses paragraphs others hgraph hsubject
  · rw [Group.join_of_ne hgraph]
    exact .alone objects clauses paragraphs others hgraph

/-! ## What stands in the blocks -/

namespace Block

/-- The graph of each block. -/
def graphs (bs : List Block) : List (Option Term) := bs.map Group.key

/-- The subject of each paragraph, with its graph. -/
def subjects (bs : List Block) : List (Option Term × Term) :=
  bs.flatMap fun b => b.items.map fun p => (b.key, p.key)

/-- The predicate of each clause, with its graph and its subject. -/
def predicates (bs : List Block) : List (Option Term × Term × Term) :=
  bs.flatMap fun b => b.items.flatMap fun p => p.items.map fun c => (b.key, p.key, c.key)

/-- Each object, with what it stands under. -/
def statements (bs : List Block) : List Statement :=
  bs.flatMap fun b => b.items.flatMap fun p => p.items.flatMap fun c =>
    c.items.map fun object => ⟨b.key, p.key, c.key, object⟩

end Block

/-- Every statement has its object. -/
theorem statements_blocks (ss : List Statement) : Block.statements (blocks ss) = ss := by
  induction ss with
  | nil => rfl
  | cons s rest ih =>
    cases rest with
    | nil => rfl
    | cons t rest =>
      have hjoins := joins_blocks s t rest
      generalize blocks (s :: t :: rest) = joined at hjoins ⊢
      generalize blocks (t :: rest) = former at hjoins ih
      cases hjoins <;> rw [← ih] <;> simp [Block.statements, *]

/-- Whether a function names the keys of a list, each where it differs from the next. -/
structure Names {α κ : Type} [DecidableEq κ] (key : α → κ) (f : List α → List κ) : Prop where
  nil : f [] = []
  cons : ∀ a rest, f (a :: rest)
    = if rest.head?.map key = some (key a) then f rest else key a :: f rest

theorem names_graphs : Names Statement.graph fun ss => Block.graphs (blocks ss) where
  nil := rfl
  cons s rest := by
    cases rest with
    | nil => simp [Block.graphs, blocks, Group.join]
    | cons t rest =>
      have hjoins := joins_blocks s t rest
      generalize blocks (s :: t :: rest) = joined at hjoins ⊢
      generalize blocks (t :: rest) = former at hjoins ⊢
      cases hjoins <;> simp [Block.graphs, *]

theorem names_subjects :
    Names (fun s : Statement => (s.graph, s.subject)) fun ss => Block.subjects (blocks ss) where
  nil := rfl
  cons s rest := by
    cases rest with
    | nil => simp [Block.subjects, blocks, Group.join]
    | cons t rest =>
      have hjoins := joins_blocks s t rest
      generalize blocks (s :: t :: rest) = joined at hjoins ⊢
      generalize blocks (t :: rest) = former at hjoins ⊢
      cases hjoins <;> simp [Block.subjects, *]

theorem names_predicates :
    Names (fun s : Statement => (s.graph, s.subject, s.predicate))
      fun ss => Block.predicates (blocks ss) where
  nil := rfl
  cons s rest := by
    cases rest with
    | nil => simp [Block.predicates, blocks, Group.join]
    | cons t rest =>
      have hjoins := joins_blocks s t rest
      generalize blocks (s :: t :: rest) = joined at hjoins ⊢
      generalize blocks (t :: rest) = former at hjoins ⊢
      cases hjoins <;> simp [Block.predicates, *]

/-- Where equal keys stand together, each is named once. -/
theorem Names.eq_dedup {α κ : Type} [DecidableEq κ] {key : α → κ} {f : List α → List κ}
    (h : Names key f) {r : α → α → Prop}
    (hr : ∀ a b c, r a b → r b c → key a = key c → key b = key a) {items : List α}
    (hitems : items.Pairwise r) : f items = (items.map key).dedup := by
  induction items with
  | nil => exact h.nil
  | cons a rest ih =>
    obtain ⟨hfirst, hrest⟩ := List.pairwise_cons.1 hitems
    rw [h.cons, List.map_cons, ih hrest]
    by_cases hmem : key a ∈ rest.map key
    · rw [List.dedup_cons_of_mem hmem]
      obtain ⟨c, hc, hkey⟩ := List.mem_map.1 hmem
      cases rest with
      | nil => cases hc
      | cons b rest =>
        refine if_pos (congrArg some ?_)
        rcases List.mem_cons.1 hc with rfl | hc
        · exact hkey
        · exact hr a b c (hfirst b List.mem_cons_self) ((List.pairwise_cons.1 hrest).1 c hc) hkey.symm
    · rw [List.dedup_cons_of_notMem hmem]
      refine if_neg fun hhead => hmem ?_
      obtain ⟨b, hb, hkey⟩ := Option.map_eq_some_iff.1 hhead
      exact List.mem_map.2 ⟨b, List.mem_of_head? hb, hkey⟩

/-! ## In canonical order -/

end TidyTrig.Trig

namespace TidyTrig.Statement

theorem eq_of_compareGraphs_eq {a b : Option Term} (ha : ∀ name ∈ a, name.isUnambiguous)
    (hb : ∀ name ∈ b, name.isUnambiguous) (h : compareGraphs a b = .eq) : a = b := by
  cases a with
  | none =>
    cases b with
    | none => rfl
    | some name => cases h
  | some name =>
    cases b with
    | none => cases h
    | some name' => rw [Term.eq_of_compare_eq (ha name rfl) (hb name' rfl) h]

/-- Whether a statement may stand before another, and both are told by their canonical forms. -/
structure Precedes (a b : Statement) : Prop where
  left : a.isUnambiguous
  right : b.isUnambiguous
  isLE : (a.compare b).isLE

theorem pairwise_precedes {ss : List Statement} (hss : ∀ s ∈ ss, s.isUnambiguous) :
    (sort ss).Pairwise Precedes :=
  (pairwise_sort ss).imp_of_mem fun ha hb hle => ⟨hss _ (mem_sort.1 ha), hss _ (mem_sort.1 hb), hle⟩

namespace Precedes

variable {a b c : Statement}

theorem isLE_graph (h : a.Precedes b) : (compareGraphs a.graph b.graph).isLE :=
  (Ordering.isLE_then_iff_and.1 h.isLE).1

/-- In the same graph, statements are in the order of their subjects. -/
theorem isLE_subject (h : a.Precedes b) (hgraph : a.graph = b.graph) :
    ((a.subject.compare b.subject).then
      ((a.predicate.compare b.predicate).then (a.object.compare b.object))).isLE := by
  have hle := h.isLE
  rw [compare, compareGraphs_eq_eq_iff.2 (congrArg _ hgraph)] at hle
  exact hle

/-- In the same graph and of the same subject, they are in the order of their predicates. -/
theorem isLE_predicate (h : a.Precedes b) (hgraph : a.graph = b.graph)
    (hsubject : a.subject = b.subject) :
    ((a.predicate.compare b.predicate).then (a.object.compare b.object)).isLE := by
  have hle := h.isLE_subject hgraph
  rw [Term.compare_eq_eq_iff.2 (congrArg _ hsubject)] at hle
  exact hle

variable (hab : a.Precedes b) (hbc : b.Precedes c)
include hab hbc

/-- Between two statements of a graph there is none of another. -/
theorem graph_eq (hgraph : a.graph = c.graph) : b.graph = a.graph := by
  have hba := hbc.isLE_graph
  rw [← hgraph] at hba
  exact eq_of_compareGraphs_eq (of_isUnambiguous hbc.left).1 (of_isUnambiguous hab.left).1
    (Std.OrientedCmp.isLE_antisymm hba hab.isLE_graph)

theorem subject_eq (hgraph : a.graph = c.graph) (hsubject : a.subject = c.subject) :
    b.subject = a.subject := by
  have hgraph' := graph_eq hab hbc hgraph
  have hle := (Ordering.isLE_then_iff_and.1 (hab.isLE_subject hgraph'.symm)).1
  have hle' := (Ordering.isLE_then_iff_and.1 (hbc.isLE_subject (hgraph'.trans hgraph))).1
  rw [← hsubject] at hle'
  exact Term.eq_of_compare_eq (of_isUnambiguous hbc.left).2.1 (of_isUnambiguous hab.left).2.1
    (Std.OrientedCmp.isLE_antisymm hle' hle)

theorem predicate_eq (hgraph : a.graph = c.graph) (hsubject : a.subject = c.subject)
    (hpredicate : a.predicate = c.predicate) : b.predicate = a.predicate := by
  have hgraph' := graph_eq hab hbc hgraph
  have hsubject' := subject_eq hab hbc hgraph hsubject
  have hle := (Ordering.isLE_then_iff_and.1
    (hab.isLE_predicate hgraph'.symm hsubject'.symm)).1
  have hle' := (Ordering.isLE_then_iff_and.1
    (hbc.isLE_predicate (hgraph'.trans hgraph) (hsubject'.trans hsubject))).1
  rw [← hpredicate] at hle'
  exact Term.eq_of_compare_eq (of_isUnambiguous hbc.left).2.2.1 (of_isUnambiguous hab.left).2.2.1
    (Std.OrientedCmp.isLE_antisymm hle' hle)

end Precedes
end TidyTrig.Statement

namespace TidyTrig.Trig

open Utf8 (encode)
open Statement (Precedes)

section

variable {ss : List Statement} (hss : ∀ s ∈ ss, s.isUnambiguous)
include hss

theorem graphs_sort :
    Block.graphs (blocks (Statement.sort ss))
      = ((Statement.sort ss).map Statement.graph).dedup :=
  names_graphs.eq_dedup (fun _ _ _ hab hbc hkey => Precedes.graph_eq hab hbc hkey)
    (Statement.pairwise_precedes hss)

theorem subjects_sort :
    Block.subjects (blocks (Statement.sort ss))
      = ((Statement.sort ss).map fun s => (s.graph, s.subject)).dedup := by
  refine names_subjects.eq_dedup (fun a b c hab hbc hkey => ?_) (Statement.pairwise_precedes hss)
  obtain ⟨hgraph, hsubject⟩ := Prod.mk.inj hkey
  exact Prod.ext (Precedes.graph_eq hab hbc hgraph) (Precedes.subject_eq hab hbc hgraph hsubject)

theorem predicates_sort :
    Block.predicates (blocks (Statement.sort ss))
      = ((Statement.sort ss).map fun s => (s.graph, s.subject, s.predicate)).dedup := by
  refine names_predicates.eq_dedup (fun a b c hab hbc hkey => ?_)
    (Statement.pairwise_precedes hss)
  obtain ⟨hgraph, hrest⟩ := Prod.mk.inj hkey
  obtain ⟨hsubject, hpredicate⟩ := Prod.mk.inj hrest
  exact Prod.ext (Precedes.graph_eq hab hbc hgraph)
    (Prod.ext (Precedes.subject_eq hab hbc hgraph hsubject)
      (Precedes.predicate_eq hab hbc hgraph hsubject hpredicate))

/-- The default graph comes first. -/
theorem isSome_of_mem_tail_graphs :
    ∀ graph ∈ (Block.graphs (blocks (Statement.sort ss))).tail, graph.isSome := by
  have hnodup : (Block.graphs (blocks (Statement.sort ss))).Nodup := by
    rw [graphs_sort hss]
    exact List.nodup_dedup _
  have hsorted := Statement.pairwise_precedes hss
  have hmem : ∀ graph ∈ Block.graphs (blocks (Statement.sort ss)),
      ∃ s ∈ Statement.sort ss, s.graph = graph := by
    intro graph hgraph
    rw [graphs_sort hss, List.mem_dedup] at hgraph
    exact List.mem_map.1 hgraph
  generalize Statement.sort ss = sorted at *
  cases sorted with
  | nil => exact fun graph h => nomatch h
  | cons first rest =>
    obtain ⟨objects, clauses, paragraphs, others, hblocks⟩ := exists_blocks_cons first rest
    rw [hblocks] at hnodup hmem ⊢
    obtain ⟨hfirst, -⟩ := List.nodup_cons.1 hnodup
    intro graph hgraph
    cases graph with
    | some name => rfl
    | none =>
      -- If there is the default graph, then the first statement is in it.
      exfalso
      obtain ⟨s, hs, hnone⟩ := hmem none (List.mem_cons_of_mem _ hgraph)
      have hdefault : first.graph = none := by
        rcases List.mem_cons.1 hs with rfl | hs
        · exact hnone
        · have hle := ((List.pairwise_cons.1 hsorted).1 s hs).isLE_graph
          rw [hnone] at hle
          cases hgraph : first.graph with
          | none => rfl
          | some name =>
            rw [hgraph] at hle
            cases hle
      exact hfirst (hdefault ▸ hgraph)

end

/-! ## The text of blocks -/

section

variable (layout : Layout) (spaces : List Namespace)

def clauseText (c : Clause) : String :=
  spellPredicate spaces layout.usesKeyword c.key ++ " "
    ++ " , ".intercalate (c.items.map (spellTerm spaces))

def paragraphText (margin : String) (p : Paragraph) : String :=
  margin ++ spellTerm spaces p.key ++ " "
    ++ (" ;\n" ++ margin ++ layout.indent).intercalate (p.items.map (clauseText layout spaces))
    ++ " .\n"

/-- The margin of the paragraphs of a graph. -/
def marginOf (graph : Option Term) : String := if graph.isSome then layout.indent else ""

/-- The text in front of the paragraphs of a graph. -/
def blockOpening (graph : Option Term) : String :=
  graph.elim "" fun name => spellTerm spaces name ++ " \x7b\n"

/-- A block in braces with its name in front, or the paragraphs of the default graph as they are. -/
def blockText (b : Block) : String :=
  blockOpening spaces b.key
    ++ "\n".intercalate (b.items.map (paragraphText layout spaces (marginOf layout b.key)))
    ++ Writer.closing b.key

def documentText (bs : List Block) : String :=
  "\n".intercalate (bs.map (blockText layout spaces))

/-! ## What is written between two statements -/

def claimText (s : Statement) : String :=
  spellPredicate spaces layout.usesKeyword s.predicate ++ " " ++ spellTerm spaces s.object

def lineText (s : Statement) : String :=
  marginOf layout s.graph ++ spellTerm spaces s.subject ++ " " ++ claimText layout spaces s

/-- The text of a statement behind another. -/
def joint (s t : Statement) : String :=
  if t.graph = s.graph then
    if t.subject = s.subject then
      if t.predicate = s.predicate then " , " ++ spellTerm spaces t.object
      else " ;\n" ++ marginOf layout t.graph ++ layout.indent ++ claimText layout spaces t
    else " .\n" ++ "\n" ++ lineText layout spaces t
  else " .\n" ++ Writer.closing s.graph ++ "\n" ++ blockOpening spaces t.graph
    ++ lineText layout spaces t

/-- The text behind a statement. -/
def continuation (s : Statement) : List Statement → String
  | [] => " .\n" ++ Writer.closing s.graph
  | t :: rest => joint layout spaces s t ++ continuation t rest

variable {layout spaces}

/-- Texts with another in front of each. -/
def followed (separator : String) : List String → String
  | [] => ""
  | text :: rest => separator ++ text ++ followed separator rest

theorem intercalate_cons (separator text : String) (rest : List String) :
    separator.intercalate (text :: rest) = text ++ followed separator rest := by
  induction rest generalizing text with
  | nil => rw [String.intercalate_singleton, followed, String.append_empty]
  | cons next rest ih =>
    rw [String.intercalate_cons_cons, ih, followed, String.append_assoc, String.append_assoc]

theorem continuation_eq {s : Statement} {rest : List Statement} {objects : List Term}
    {clauses : List Clause} {paragraphs : List Paragraph} {others : List Block}
    (h : blocks (s :: rest)
      = ⟨s.graph, ⟨s.subject, ⟨s.predicate, s.object :: objects⟩ :: clauses⟩ :: paragraphs⟩
        :: others) :
    continuation layout spaces s rest
      = followed " , " (objects.map (spellTerm spaces))
        ++ followed (" ;\n" ++ marginOf layout s.graph ++ layout.indent)
          (clauses.map (clauseText layout spaces))
        ++ " .\n"
        ++ followed "\n" (paragraphs.map (paragraphText layout spaces (marginOf layout s.graph)))
        ++ Writer.closing s.graph
        ++ followed "\n" (others.map (blockText layout spaces)) := by
  induction rest generalizing s objects clauses paragraphs others with
  | nil =>
    cases h
    simp [continuation, followed]
  | cons t rest ih =>
    have hjoins := joins_blocks s t rest
    rw [h] at hjoins
    generalize hformer : blocks (t :: rest) = former at hjoins
    rw [continuation]
    cases hjoins with
    | predicate objects clauses paragraphs others hgraph hsubject hpredicate =>
      rw [joint, if_pos hgraph, if_pos hsubject, if_pos hpredicate, ih hformer, hgraph]
      simp [followed, String.append_assoc]
    | subject objects clauses paragraphs others hgraph hsubject hpredicate =>
      rw [joint, if_pos hgraph, if_pos hsubject, if_neg hpredicate, ih hformer, hgraph]
      simp [clauseText, claimText, intercalate_cons, followed,
        String.append_assoc]
    | graph objects clauses paragraphs others hgraph hsubject =>
      rw [joint, if_pos hgraph, if_neg hsubject, ih hformer, lineText, hgraph]
      simp [-String.reduceAppend, paragraphText, clauseText, claimText, intercalate_cons, followed,
        String.append_assoc]
    | alone objects clauses paragraphs others hgraph =>
      rw [joint, if_neg hgraph, ih hformer]
      simp [blockText, paragraphText, clauseText, lineText, claimText, intercalate_cons, followed,
        String.append_assoc]

/-- The text of the blocks starts with their first statement. -/
theorem documentText_cons (s : Statement) (rest : List Statement) :
    documentText layout spaces (blocks (s :: rest))
      = blockOpening spaces s.graph ++ lineText layout spaces s
        ++ continuation layout spaces s rest := by
  obtain ⟨objects, clauses, paragraphs, others, hblocks⟩ := exists_blocks_cons s rest
  rw [continuation_eq hblocks, hblocks]
  simp [documentText, blockText, paragraphText, clauseText, lineText, claimText, intercalate_cons,
    String.append_assoc]

end

/-! ## Writing statements -/

/-- A writer without limits whose latest statement is `s`. -/
structure Writer.IsBehind (w : Writer) (s : Statement) : Prop where
  room : w.device.room = none
  flushes : w.device.failsToFlush = false
  graph : w.graph = some s.graph
  subject : w.subject = some s.subject
  predicate : w.predicate = some s.predicate
  hasWritten : w.hasWritten = true

namespace Writer

/-- What a statement adds to what a writer has written. -/
structure Adds (w : Writer) (s : Statement) (text : String) (w' : Writer) : Prop where
  add_eq : add s w = .ok () w'
  isBehind : w'.IsBehind s
  layout : w'.layout = w.layout
  spaces : w'.spaces = w.spaces
  contents : w'.device.contents = w.device.contents ++ encode text

variable {w : Writer} {s t : Statement}

theorem IsBehind.joined (h : w.IsBehind s) (hfit : t.misfit? = none) (hgraph : t.graph = s.graph)
    {text : String} (hadd : addToGraph t w = .ok () (w.joined t text)) :
    w.Adds t text (w.joined t text) where
  add_eq := by rw [add_sameGraph hfit (by rw [h.graph, hgraph]), hadd]
  isBehind := ⟨h.room, h.flushes, by rw [hgraph]; exact h.graph, rfl, rfl, h.hasWritten⟩
  layout := rfl
  spaces := rfl
  contents := contents_wrote w text

/-- What ends the open graph, if one is open, and the writer that is left. -/
structure Closes (w : Writer) (text : String) (w' : Writer) : Prop where
  close_eq : closeGraph w = .ok () w'
  room : w'.device.room = none
  flushes : w'.device.failsToFlush = false
  subject : w'.subject = none
  layout : w'.layout = w.layout
  spaces : w'.spaces = w.spaces
  hasWritten : w'.hasWritten = w.hasWritten
  contents : w'.device.contents = w.device.contents ++ encode text

theorem IsBehind.closes (h : w.IsBehind s) : ∃ w', w.Closes (" .\n" ++ closing s.graph) w' := by
  refine ⟨_, closeGraph_of_open h.room h.graph h.subject, h.room, h.flushes, rfl, rfl, rfl, rfl, ?_⟩
  show ((w.wrote " .\n").wrote (closing s.graph)).device.contents = _
  rw [wrote_wrote, contents_wrote]

/-- A statement in another graph than the one that is open, if one is. -/
theorem Closes.exists_adds {text : String} {w₀ : Writer} (h : w.Closes text w₀)
    (hfit : t.misfit? = none) (hgraph : w.graph ≠ some t.graph) :
    ∃ w', w.Adds t (text ++ (if w.hasWritten then "\n" else "") ++ blockOpening w.spaces t.graph
      ++ lineText w.layout w.spaces t) w' := by
  have hopen := openGraph_ok h.close_eq h.room t.graph
  generalize hw₁ : ({ w₀.wrote (opening w₀ t.graph) with
    graph := some t.graph, hasWritten := true } : Writer) = w₁ at hopen
  have hroom : w₁.device.room = none := hw₁ ▸ h.room
  have hsubject : w₁.subject = none := hw₁ ▸ h.subject
  have hcontents : w₁.device.contents = w₀.device.contents ++ encode (opening w₀ t.graph) :=
    hw₁ ▸ contents_wrote w₀ _
  have hline : w₁.line t = lineText w.layout w.spaces t := by
    rw [← h.layout, ← h.spaces, ← hw₁]
    rfl
  refine ⟨w₁.joined t (w₁.line t), ?_, ?_, ?_, ?_, ?_⟩
  · rw [add_otherGraph hfit hgraph hopen, addToGraph_first hroom hsubject]
  · exact ⟨hroom, hw₁ ▸ h.flushes, hw₁ ▸ rfl, rfl, rfl, hw₁ ▸ rfl⟩
  · rw [← h.layout, ← hw₁]
    rfl
  · rw [← h.spaces, ← hw₁]
    rfl
  · have hlast : (w₁.joined t (w₁.line t)).device.contents
        = w₁.device.contents ++ encode (w₁.line t) := contents_wrote w₁ _
    rw [hlast, hcontents, h.contents, hline, opening, h.spaces, h.hasWritten, blockOpening]
    simp only [Utf8.encode_append, List.append_assoc]

theorem IsBehind.exists_adds (h : w.IsBehind s) (hfit : t.misfit? = none) :
    ∃ w', w.Adds t (joint w.layout w.spaces s t) w' := by
  unfold joint
  by_cases hgraph : t.graph = s.graph
  · rw [if_pos hgraph]
    by_cases hsubject : t.subject = s.subject
    · rw [if_pos hsubject]
      have hsame : w.subject = some t.subject := by rw [h.subject, hsubject]
      by_cases hpredicate : t.predicate = s.predicate
      · rw [if_pos hpredicate]
        exact ⟨_, h.joined hfit hgraph
          (addToGraph_comma h.room hsame (by rw [h.predicate, hpredicate]))⟩
      · rw [if_neg hpredicate]
        refine ⟨_, h.joined hfit hgraph (addToGraph_semicolon h.room hsame ?_)⟩
        rw [h.predicate]
        exact fun heq => hpredicate (Option.some.inj heq).symm
    · rw [if_neg hsubject]
      exact ⟨_, h.joined hfit hgraph (addToGraph_next h.room h.subject (Ne.symm hsubject))⟩
  · rw [if_neg hgraph]
    have hother : w.graph ≠ some t.graph := by
      rw [h.graph]
      exact fun heq => hgraph (Option.some.inj heq).symm
    obtain ⟨w₀, hcloses⟩ := h.closes
    obtain ⟨w', hadds⟩ := hcloses.exists_adds hfit hother
    rw [h.hasWritten, if_pos rfl] at hadds
    exact ⟨w', hadds⟩

/-- Statements are written as they follow on each other. -/
theorem IsBehind.exists_writeAll (h : w.IsBehind s) {rest : List Statement}
    (hfit : ∀ t ∈ rest, t.misfit? = none) :
    ∃ w', Entry.writeAll (rest.map .statement) w = .ok () w'
      ∧ w'.device.contents
        = w.device.contents ++ encode (continuation w.layout w.spaces s rest) := by
  induction rest generalizing w s with
  | nil =>
    obtain ⟨w', hcloses⟩ := h.closes
    exact ⟨w', finish_ok hcloses.close_eq hcloses.flushes, hcloses.contents⟩
  | cons t rest ih =>
    obtain ⟨w₁, hadds⟩ := h.exists_adds (hfit t List.mem_cons_self)
    obtain ⟨w', hrest, hcontents⟩ :=
      ih hadds.isBehind fun u hu => hfit u (List.mem_cons_of_mem _ hu)
    refine ⟨w', (bind_ok hadds.add_eq).trans hrest, ?_⟩
    rw [hcontents, hadds.contents, hadds.layout, hadds.spaces, continuation, Utf8.encode_append,
      List.append_assoc]

end Writer

theorem spaces_declaring (w : Writer) (spaces : List Namespace) :
    (declaring w spaces).spaces = spaces.foldl (fun later s => bind s later) w.spaces
      ∧ (declaring w spaces).layout = w.layout := by
  induction spaces generalizing w with
  | nil => exact ⟨rfl, rfl⟩
  | cons space rest ih => exact ih _

theorem hasWritten_declaring (layout : Layout) (spaces : List Namespace) :
    (declaring (.start .unlimited layout) spaces).hasWritten = decide (spaces ≠ []) := by
  cases spaces with
  | nil => rfl
  | cons space rest =>
    obtain ⟨-, -, -, -, -, -, hwritten⟩ :=
      declaring_spec (.start .unlimited layout) (space :: rest)
    rw [hwritten (List.cons_ne_nil _ _), decide_eq_true (List.cons_ne_nil _ _)]

/-- Behind some declarations, statements are written as the text of their blocks. -/
theorem writeAll_eq_documentText (layout : Layout) (spaces : List Namespace) {ss : List Statement}
    (hfit : ∀ s ∈ ss, s.misfit? = none) :
    ∃ w, Entry.writeAll (spaces.map .declaration ++ ss.map .statement) (.start .unlimited layout)
        = .ok () w
      ∧ w.device.contents = header spaces
        ++ encode ((if spaces ≠ [] ∧ ss ≠ [] then "\n" else "")
          ++ documentText layout (inForce spaces) (blocks ss)) := by
  obtain ⟨hcontents, hroom, hgraph, hsubject, hpredicate, hflushes, -⟩ :=
    declaring_spec (.start .unlimited layout) spaces
  obtain ⟨hspaces, hlayout⟩ := spaces_declaring (.start .unlimited layout) spaces
  have hwritten := hasWritten_declaring layout spaces
  rw [writeAll_declarations rfl rfl]
  generalize declaring (.start .unlimited layout) spaces = w at *
  change w.device.contents = header spaces at hcontents
  change w.spaces = inForce spaces at hspaces
  have hcloses : w.Closes "" w :=
    ⟨Writer.closeGraph_of_none hgraph hsubject hpredicate, hroom, hflushes, hsubject, rfl, rfl, rfl,
      (List.append_nil _).symm⟩
  cases ss with
  | nil =>
    refine ⟨w, Writer.finish_ok hcloses.close_eq hflushes, ?_⟩
    rw [hcontents, if_neg (fun h => h.2 rfl)]
    exact (List.append_nil _).symm
  | cons s rest =>
    have hother : w.graph ≠ some s.graph := by
      rw [hgraph]
      exact nofun
    obtain ⟨w₁, hadds⟩ := hcloses.exists_adds (hfit s List.mem_cons_self) hother
    obtain ⟨w', hrest, hcontents'⟩ :=
      hadds.isBehind.exists_writeAll fun t ht => hfit t (List.mem_cons_of_mem _ ht)
    refine ⟨w', (Writer.bind_ok hadds.add_eq).trans hrest, ?_⟩
    have hlayout' : w.layout = layout := hlayout
    rw [hcontents', hadds.contents, hadds.layout, hadds.spaces, hcontents, hwritten, hspaces,
      hlayout', documentText_cons]
    simp [Utf8.encode_append, String.append_assoc]

/-- Declarations and then statements in canonical order are written as the directives and a text in
blocks. Each graph has one block, the default graph the first; each subject has one paragraph in its
graph, and each predicate one clause for its subject. There is an object for each statement. -/
theorem blocks_of_sort (layout : Layout) (spaces : List Namespace) {ss : List Statement}
    (hunambiguous : ∀ s ∈ ss, s.isUnambiguous) (hfit : ∀ s ∈ ss, s.misfit? = none) :
    (∃ w, Entry.writeAll (canonicalEntries spaces ss) (.start .unlimited layout) = .ok () w
      ∧ w.device.contents = header spaces
        ++ encode ((if spaces ≠ [] ∧ ss ≠ [] then "\n" else "")
          ++ documentText layout (inForce spaces) (blocks (Statement.sort ss))))
      ∧ Block.graphs (blocks (Statement.sort ss))
        = ((Statement.sort ss).map Statement.graph).dedup
      ∧ (∀ graph ∈ (Block.graphs (blocks (Statement.sort ss))).tail, graph.isSome)
      ∧ Block.subjects (blocks (Statement.sort ss))
        = ((Statement.sort ss).map fun s => (s.graph, s.subject)).dedup
      ∧ Block.predicates (blocks (Statement.sort ss))
        = ((Statement.sort ss).map fun s => (s.graph, s.subject, s.predicate)).dedup
      ∧ Block.statements (blocks (Statement.sort ss)) = Statement.sort ss := by
  refine ⟨?_, graphs_sort hunambiguous, isSome_of_mem_tail_graphs hunambiguous,
    subjects_sort hunambiguous, predicates_sort hunambiguous, statements_blocks _⟩
  have hempty : Statement.sort ss = [] ↔ ss = [] := by
    rw [← List.length_eq_zero_iff, (Statement.sort_perm ss).length_eq, List.length_eq_zero_iff]
  obtain ⟨w, hall, hcontents⟩ := writeAll_eq_documentText layout spaces
    fun s hs => hfit s (Statement.mem_sort.1 hs)
  exact ⟨w, hall, by simpa only [ne_eq, hempty] using hcontents⟩

/-- The same subject in two graphs that follow on each other, in one of them with two predicates, of
which one has two objects. -/
def adjacent : List Statement :=
  [⟨none, .iri "http://e/s", .iri "http://e/q", .literal (.tagged "a" "en")⟩,
    ⟨some (.iri "http://e/g"), .iri "http://e/s", .iri "http://e/p", .blank "c"⟩,
    ⟨some (.iri "http://e/g"), .iri "http://e/s", .iri "http://e/q", .blank "a"⟩,
    ⟨some (.iri "http://e/g"), .iri "http://e/s", .iri "http://e/q", .blank "b"⟩]

theorem blocks_of_sort_adjacent :
    ∃ w, Entry.writeAll (canonicalEntries [⟨"ex", "http://e/"⟩] adjacent.reverse)
        (.start .unlimited ⟨"\t", true⟩) = .ok () w
      ∧ w.device.contents = encode ("@prefix ex: <http://e/> .\n\nex:s ex:q \"a\"@en .\n\n"
        ++ "ex:g \x7b\n\tex:s ex:p _:c ;\n\t\tex:q _:a , _:b .\n\x7d\n") := by
  have hsort : Statement.sort adjacent.reverse = adjacent :=
    (Statement.sort_eq_of_perm (List.reverse_perm _) (by decide +kernel)).trans
      (List.mergeSort_of_pairwise (by decide +kernel))
  obtain ⟨⟨w, hall, hcontents⟩, -⟩ :=
    @blocks_of_sort ⟨"\t", true⟩ [⟨"ex", "http://e/"⟩] adjacent.reverse
      (by decide +kernel) (by decide +kernel)
  rw [hsort] at hcontents
  exact ⟨w, hall, hcontents.trans (by decide +kernel)⟩

end TidyTrig.Trig
