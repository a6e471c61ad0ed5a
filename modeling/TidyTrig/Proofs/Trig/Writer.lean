import TidyTrig.Proofs.Text.Utf8
import TidyTrig.Trig.Writer

/-!
# What the writer writes

On a device without limits no operation of the writer fails. For each there is one lemma for each
way it can go, which names the text that is written and the state that is left. What holds of the steps
that the operations are made of holds of the operations, on any device (`IsModular`).
-/

namespace TidyTrig.Trig

open Utf8

namespace Writer

/-! ## Writing text and ending what is open -/

/-- The state after writing a text to a device without limits. -/
def wrote (w : Writer) (text : String) : Writer :=
  { w with device := { w.device with kept := (encode text).reverse ++ w.device.kept } }

theorem contents_wrote (w : Writer) (text : String) :
    (w.wrote text).device.contents = w.device.contents ++ encode text := by
  rw [wrote, Device.contents, Device.contents, List.reverse_append, List.reverse_reverse]

theorem bind_ok {α β : Type} {x : Writing α} {f : α → Writing β} {w w' : Writer} {a : α}
    (h : x w = .ok a w') : (x >>= f) w = f a w' := by
  show EStateM.bind x f w = f a w'
  rw [EStateM.bind, h]

theorem get_ok (w : Writer) : (get : Writing Writer) w = .ok w w := rfl

theorem put_ok {w : Writer} (hroom : w.device.room = none) (text : String) :
    put text w = .ok () (w.wrote text) := by
  obtain ⟨⟨kept, room, failsToFlush⟩, layout, spaces, graph, subject, predicate, hasWritten⟩ := w
  cases hroom
  rfl

/-- An open statement is ended by a dot. -/
theorem closeStatement_of_open {w : Writer} (hroom : w.device.room = none) {s : Term}
    (hsubject : w.subject = some s) :
    closeStatement w = .ok () { w.wrote " .\n" with subject := none, predicate := none } := by
  have hstep : closeStatement w
      = (put " .\n" >>= fun _ => modify fun w => { w with predicate := none })
        { w with subject := none } := by
    unfold closeStatement
    obtain ⟨device, layout, spaces, graph, subject, predicate, hasWritten⟩ := w
    cases hsubject
    rfl
  rw [hstep, bind_ok (put_ok (w := { w with subject := none }) hroom _)]
  rfl

theorem closeStatement_of_closed {w : Writer} (hsubject : w.subject = none) :
    closeStatement w = .ok () { w with predicate := none } := by
  unfold closeStatement
  obtain ⟨device, layout, spaces, graph, subject, predicate, hasWritten⟩ := w
  cases hsubject
  rfl

/-- The text that ends a graph. -/
def closing : Option Term → String
  | none => ""
  | some _ => "\x7d\n"

theorem closeGraph_of_none {w : Writer} (hgraph : w.graph = none) (hsubject : w.subject = none)
    (hpredicate : w.predicate = none) : closeGraph w = .ok () w := by
  unfold closeGraph
  rw [bind_ok (closeStatement_of_closed hsubject)]
  obtain ⟨device, layout, spaces, graph, subject, predicate, hasWritten⟩ := w
  cases hgraph
  cases hsubject
  cases hpredicate
  rfl

theorem closeGraph_of_open {w : Writer} (hroom : w.device.room = none) {graph : Option Term}
    (hgraph : w.graph = some graph) {s : Term} (hsubject : w.subject = some s) :
    closeGraph w = .ok () { (w.wrote " .\n").wrote (closing graph) with
      graph := none, subject := none, predicate := none } := by
  unfold closeGraph
  rw [bind_ok (closeStatement_of_open hroom hsubject)]
  obtain ⟨device, layout, spaces, graph', subject, predicate, hasWritten⟩ := w
  cases hgraph
  cases graph with
  | none => rfl
  | some name =>
    exact put_ok (w := { (wrote ⟨device, layout, spaces, some (some name), subject, predicate,
      hasWritten⟩ " .\n") with graph := none, subject := none, predicate := none }) hroom _

theorem wrote_wrote (w : Writer) (s t : String) : (w.wrote s).wrote t = w.wrote (s ++ t) := by
  unfold wrote
  rw [encode_append, List.reverse_append, List.append_assoc]

/-! ## Opening a graph -/

/-- The text that opens a graph. -/
def opening (w : Writer) (graph : Option Term) : String :=
  (if w.hasWritten then "\n" else "") ++ graph.elim "" fun name => spellTerm w.spaces name ++ " \x7b\n"

/-- A graph is opened when the one before it is closed. -/
theorem openGraph_ok {w w' : Writer} (hclose : closeGraph w = .ok () w')
    (hroom : w'.device.room = none) (graph : Option Term) :
    openGraph graph w = .ok () { w'.wrote (opening w' graph) with
      graph := some graph, hasWritten := true } := by
  unfold openGraph
  rw [bind_ok hclose]
  obtain ⟨device, layout, spaces, graph', subject, predicate, hasWritten⟩ := w'
  generalize hw : Writer.mk device layout spaces graph' subject predicate hasWritten = w' at hroom
  have hlayout : w'.spaces = spaces ∧ w'.hasWritten = hasWritten := by
    rw [← hw]
    exact ⟨rfl, rfl⟩
  rw [opening, hlayout.1, hlayout.2, ← wrote_wrote]
  cases hasWritten with
  | true =>
    cases graph with
    | none =>
      subst hw
      exact bind_ok (put_ok hroom "\n")
    | some name =>
      subst hw
      refine (bind_ok (put_ok hroom "\n")).trans ?_
      exact bind_ok (put_ok (w := wrote _ "\n") hroom _)
  | false =>
    cases graph with
    | none =>
      subst hw
      rfl
    | some name =>
      subst hw
      exact bind_ok (put_ok hroom _)

/-! ## Statements -/

/-- The indentation of a statement in a graph. -/
def margin (w : Writer) (s : Statement) : String :=
  if s.graph.isSome then w.layout.indent else ""

/-- The verb and the object of a statement. -/
def claim (w : Writer) (s : Statement) : String :=
  spellPredicate w.spaces w.layout.usesKeyword s.predicate ++ " " ++ spellTerm w.spaces s.object

/-- The state after writing a statement. -/
def joined (w : Writer) (s : Statement) (text : String) : Writer :=
  { w.wrote text with subject := some s.subject, predicate := some s.predicate }

theorem addToGraph_comma {w : Writer} (hroom : w.device.room = none) {s : Statement}
    (hsubject : w.subject = some s.subject) (hpredicate : w.predicate = some s.predicate) :
    addToGraph s w = .ok () (w.joined s (" , " ++ spellTerm w.spaces s.object)) := by
  unfold addToGraph
  refine (bind_ok (get_ok w)).trans ?_
  dsimp only
  rw [if_pos hsubject, if_pos hpredicate]
  exact bind_ok (put_ok hroom _)

theorem addToGraph_semicolon {w : Writer} (hroom : w.device.room = none) {s : Statement}
    (hsubject : w.subject = some s.subject) (hpredicate : w.predicate ≠ some s.predicate) :
    addToGraph s w
      = .ok () (w.joined s (" ;\n" ++ w.margin s ++ w.layout.indent ++ w.claim s)) := by
  have htext : " ;\n" ++ w.margin s ++ w.layout.indent ++ w.claim s
      = " ;\n" ++ w.margin s ++ w.layout.indent
        ++ spellPredicate w.spaces w.layout.usesKeyword s.predicate ++ " "
        ++ spellTerm w.spaces s.object := by
    simp only [claim, String.append_assoc]
  rw [htext]
  unfold addToGraph
  refine (bind_ok (get_ok w)).trans ?_
  dsimp only
  rw [if_pos hsubject, if_neg hpredicate]
  exact bind_ok (put_ok hroom _)

/-- The subject, the verb and the object of a statement, on a line of their own. -/
def line (w : Writer) (s : Statement) : String :=
  w.margin s ++ spellTerm w.spaces s.subject ++ " " ++ w.claim s

theorem addToGraph_first {w : Writer} (hroom : w.device.room = none) {s : Statement}
    (hsubject : w.subject = none) :
    addToGraph s w = .ok () (w.joined s (w.line s)) := by
  have htext : w.line s = w.margin s ++ spellTerm w.spaces s.subject ++ " "
      ++ spellPredicate w.spaces w.layout.usesKeyword s.predicate ++ " "
      ++ spellTerm w.spaces s.object := by
    simp only [line, claim, String.append_assoc]
  rw [htext]
  unfold addToGraph
  refine (bind_ok (get_ok w)).trans ?_
  dsimp only
  rw [if_neg (by rw [hsubject]; exact nofun), if_neg (by rw [hsubject]; exact Bool.false_ne_true)]
  exact bind_ok (put_ok hroom _)

theorem addToGraph_next {w : Writer} (hroom : w.device.room = none) {s : Statement} {t : Term}
    (hsubject : w.subject = some t) (hne : t ≠ s.subject) :
    addToGraph s w = .ok () (w.joined s (" .\n\n" ++ w.line s)) := by
  have htext : " .\n\n" ++ w.line s = " .\n" ++ ("\n" ++ (w.margin s
      ++ spellTerm w.spaces s.subject ++ " "
      ++ spellPredicate w.spaces w.layout.usesKeyword s.predicate ++ " "
      ++ spellTerm w.spaces s.object)) := by
    simp only [line, claim, ← String.append_assoc]
    rfl
  rw [htext, joined, ← wrote_wrote, ← wrote_wrote]
  unfold addToGraph
  refine (bind_ok (get_ok w)).trans ?_
  dsimp only
  rw [if_neg (by rw [hsubject]; exact fun h => hne (Option.some.inj h)),
    if_pos (by rw [hsubject]; rfl)]
  refine (bind_ok (closeStatement_of_open hroom hsubject)).trans ?_
  refine (bind_ok (put_ok (w := { w.wrote " .\n" with subject := none, predicate := none })
    hroom "\n")).trans ?_
  refine (bind_ok (put_ok (w := wrote { w.wrote " .\n" with subject := none, predicate := none }
    "\n") hroom _)).trans ?_
  rfl

/-- A statement that fits is written, in a graph of its own if another is open. -/
theorem add_sameGraph {w : Writer} {s : Statement} (hfit : s.misfit? = none)
    (hgraph : w.graph = some s.graph) : add s w = addToGraph s w := by
  unfold add
  rw [hfit]
  refine (bind_ok (get_ok w)).trans ?_
  rw [if_neg (not_not_intro hgraph)]

theorem add_otherGraph {w w' : Writer} {s : Statement} (hfit : s.misfit? = none)
    (hgraph : w.graph ≠ some s.graph) (hopen : openGraph s.graph w = .ok () w') :
    add s w = addToGraph s w' := by
  unfold add
  rw [hfit]
  refine (bind_ok (get_ok w)).trans ?_
  rw [if_pos hgraph]
  exact bind_ok hopen

/-! ## Directives and the end -/

/-- The text of a directive. -/
def directive (space : Namespace) : String :=
  "@prefix " ++ space.name ++ ": <" ++ space.iri ++ "> .\n"

/-- The state after a declaration. -/
def declared (w : Writer) (space : Namespace) (text : String) : Writer :=
  { w.wrote text with spaces := bind space w.spaces, hasWritten := true }

theorem declare_of_none {w : Writer} (hroom : w.device.room = none) (hgraph : w.graph = none)
    (space : Namespace) :
    declare space w = .ok () (w.declared space (directive space)) := by
  unfold declare
  refine (bind_ok (get_ok w)).trans ?_
  rw [if_neg (by rw [hgraph]; exact Bool.false_ne_true)]
  exact bind_ok (put_ok hroom _)

theorem declare_of_graph {w w' : Writer} {graph : Option Term} (hgraph : w.graph = some graph)
    (hclose : closeGraph w = .ok () w') (hroom : w'.device.room = none) (space : Namespace) :
    declare space w = .ok () (w'.declared space ("\n" ++ directive space)) := by
  rw [declared, ← wrote_wrote]
  unfold declare
  refine (bind_ok (get_ok w)).trans ?_
  rw [if_pos (by rw [hgraph]; rfl)]
  refine (bind_ok hclose).trans ?_
  refine (bind_ok (put_ok hroom "\n")).trans ?_
  exact bind_ok (put_ok (w := w'.wrote "\n") hroom _)

theorem finish_ok {w w' : Writer} (hclose : closeGraph w = .ok () w')
    (hflush : w'.device.failsToFlush = false) : finish w = .ok () w' := by
  unfold finish
  refine (bind_ok hclose).trans ?_
  refine (bind_ok (get_ok w')).trans ?_
  rw [if_neg (by rw [hflush]; exact Bool.false_ne_true)]
  rfl

/-! ## Without limits -/

/-- A device without limits, and a statement that is open just if a graph is. -/
structure IsFree (w : Writer) : Prop where
  room : w.device.room = none
  flushes : w.device.failsToFlush = false
  isOpen : (w.graph = none ∧ w.subject = none ∧ w.predicate = none)
    ∨ ∃ graph s, w.graph = some graph ∧ w.subject = some s

theorem isFree_start (layout : Layout) : (start .unlimited layout).IsFree where
  room := rfl
  flushes := rfl
  isOpen := .inl ⟨rfl, rfl, rfl⟩

variable {w : Writer}

theorem IsFree.closeGraph (h : w.IsFree) :
    ∃ w', closeGraph w = .ok () w' ∧ w'.IsFree ∧ w'.graph = none ∧ w'.subject = none := by
  rcases h.isOpen with ⟨hgraph, hsubject, hpredicate⟩ | ⟨graph, s, hgraph, hsubject⟩
  · exact ⟨w, closeGraph_of_none hgraph hsubject hpredicate, h, hgraph, hsubject⟩
  · exact ⟨_, closeGraph_of_open h.room hgraph hsubject,
      ⟨h.room, h.flushes, .inl ⟨rfl, rfl, rfl⟩⟩, rfl, rfl⟩

theorem IsFree.declare (h : w.IsFree) (space : Namespace) :
    ∃ w', declare space w = .ok () w' ∧ w'.IsFree := by
  rcases h.isOpen with hclosed | ⟨graph, s, hgraph, hsubject⟩
  · exact ⟨_, declare_of_none h.room hclosed.1 space, h.room, h.flushes, .inl hclosed⟩
  · exact ⟨_, declare_of_graph hgraph (closeGraph_of_open h.room hgraph hsubject) h.room space,
      h.room, h.flushes, .inl ⟨rfl, rfl, rfl⟩⟩

theorem IsFree.addToGraph (h : w.IsFree) {s : Statement} (hgraph : w.graph = some s.graph) :
    ∃ w', addToGraph s w = .ok () w' ∧ w'.IsFree := by
  have hjoined : ∀ text, (w.joined s text).IsFree := fun text =>
    ⟨h.room, h.flushes, .inr ⟨s.graph, s.subject, hgraph, rfl⟩⟩
  cases hsubject : w.subject with
  | none => exact ⟨_, addToGraph_first h.room hsubject, hjoined _⟩
  | some t =>
    by_cases hsame : t = s.subject
    · subst hsame
      by_cases hpredicate : w.predicate = some s.predicate
      · exact ⟨_, addToGraph_comma h.room hsubject hpredicate, hjoined _⟩
      · exact ⟨_, addToGraph_semicolon h.room hsubject hpredicate, hjoined _⟩
    · exact ⟨_, addToGraph_next h.room hsubject hsame, hjoined _⟩

/-- A statement that can be written is written. -/
theorem IsFree.add (h : w.IsFree) {s : Statement} (hfit : s.misfit? = none) :
    ∃ w', add s w = .ok () w' ∧ w'.IsFree := by
  by_cases hgraph : w.graph = some s.graph
  · rw [add_sameGraph hfit hgraph]
    exact h.addToGraph hgraph
  · obtain ⟨w₀, hclose, hfree, -, hsubject⟩ := h.closeGraph
    have hopen := openGraph_ok hclose hfree.room s.graph
    generalize hw₁ : ({ w₀.wrote (opening w₀ s.graph) with
      graph := some s.graph, hasWritten := true } : Writer) = w₁ at hopen
    have hroom : w₁.device.room = none := hw₁ ▸ hfree.room
    have hflushes : w₁.device.failsToFlush = false := hw₁ ▸ hfree.flushes
    have hgraph₁ : w₁.graph = some s.graph := hw₁ ▸ rfl
    have hsubject₁ : w₁.subject = none := hw₁ ▸ hsubject
    rw [add_otherGraph hfit hgraph hopen]
    exact ⟨_, addToGraph_first hroom hsubject₁, hroom, hflushes,
      .inr ⟨s.graph, s.subject, hgraph₁, rfl⟩⟩

theorem IsFree.finish (h : w.IsFree) : ∃ w', finish w = .ok () w' := by
  obtain ⟨w', hclose, hfree, -⟩ := h.closeGraph
  exact ⟨w', finish_ok hclose hfree.flushes⟩

/-! ## What holds of all operations -/

/-- A property of the steps that the operations are made of, which passes on to what is made of them.
What comes next may depend on the writer, but not on how much room there is. -/
structure IsModular (P : {α : Type} → Writing α → Prop) : Prop where
  of_pure : ∀ {α : Type} (a : α), P (pure a : Writing α)
  of_throw : ∀ {α : Type} (e : SinkError), e ≠ .output "disk full" → P (throw e : Writing α)
  of_put : ∀ text, P (put text)
  of_modify : ∀ {f : Writer → Writer}, (∀ w d, f { w with device := d } = { f w with device := d }) →
    (∀ w, (f w).spaces = w.spaces) → P (modify f : Writing Unit)
  of_bind : ∀ {α β : Type} {x : Writing α} {f : α → Writing β}, P x → (∀ a, P (f a)) → P (x >>= f)
  of_get : ∀ {α : Type} {f : Writer → Writing α},
    (∀ w room, f { w with device := { w.device with room } } = f w) → (∀ w, P (f w)) → P (get >>= f)

namespace IsModular

variable {P : {α : Type} → Writing α → Prop} (h : IsModular P)
include h

theorem closeStatement : P closeStatement := by
  have hlast : P (modify fun w : Writer => { w with predicate := none }) :=
    h.of_modify (fun _ _ => rfl) fun _ => rfl
  unfold Writer.closeStatement
  refine h.of_get (fun w room => rfl) fun w => ?_
  dsimp only
  split
  · refine h.of_bind ?_ fun _ => h.of_bind (h.of_put _) fun _ => hlast
    exact h.of_modify (fun _ _ => rfl) fun _ => rfl
  · exact hlast

theorem closeGraph : P closeGraph := by
  unfold Writer.closeGraph
  refine h.of_bind h.closeStatement fun _ => h.of_get (fun w room => rfl) fun w => ?_
  refine h.of_bind ?_ fun _ => ?_
  · exact h.of_modify (fun _ _ => rfl) fun _ => rfl
  · split
    · exact h.of_put _
    · exact h.of_pure _

theorem openGraph (graph : Option Term) : P (openGraph graph) := by
  have hlast : P (modify fun w : Writer => { w with graph := some graph, hasWritten := true }) :=
    h.of_modify (fun _ _ => rfl) fun _ => rfl
  unfold Writer.openGraph
  refine h.of_bind h.closeGraph fun _ => h.of_get (fun w room => rfl) fun w => ?_
  dsimp only
  split
  · refine h.of_bind (h.of_put _) fun _ => ?_
    cases graph with
    | none => exact hlast
    | some name => exact h.of_bind (h.of_put _) fun _ => hlast
  · cases graph with
    | none => exact hlast
    | some name => exact h.of_bind (h.of_put _) fun _ => hlast

theorem addToGraph (s : Statement) : P (addToGraph s) := by
  have hlast : P (modify fun w : Writer =>
      { w with subject := some s.subject, predicate := some s.predicate }) :=
    h.of_modify (fun _ _ => rfl) fun _ => rfl
  unfold Writer.addToGraph
  refine h.of_get (fun w room => rfl) fun w => ?_
  dsimp only
  split
  · split
    · exact h.of_bind (h.of_put _) fun _ => hlast
    · exact h.of_bind (h.of_put _) fun _ => hlast
  · split
    · exact h.of_bind h.closeStatement fun _ => h.of_bind (h.of_put _) fun _ =>
        h.of_bind (h.of_put _) fun _ => hlast
    · exact h.of_bind (h.of_put _) fun _ => hlast

theorem add (s : Statement) : P (add s) := by
  unfold Writer.add
  split
  · exact h.of_throw _ nofun
  · refine h.of_get (fun w room => rfl) fun w => ?_
    dsimp only
    split
    · exact h.of_bind (h.openGraph _) fun _ => h.addToGraph s
    · exact h.addToGraph s

/-- Only a declaration changes the declarations in force, so that the property may fail there. -/
theorem declare {space : Namespace} (hbind : P (modify fun w : Writer =>
      { w with spaces := Trig.bind space w.spaces, hasWritten := true })) : P (declare space) := by
  have hlast : P (do
      put ("@prefix " ++ space.name ++ ": <" ++ space.iri ++ "> .\n")
      modify fun w => { w with spaces := Trig.bind space w.spaces, hasWritten := true }) :=
    h.of_bind (h.of_put _) fun _ => hbind
  unfold Writer.declare
  refine h.of_get (fun w room => rfl) fun w => ?_
  dsimp only
  split
  · exact h.of_bind h.closeGraph fun _ => h.of_bind (h.of_put _) fun _ => hlast
  · exact hlast

theorem finish : P finish := by
  unfold Writer.finish
  refine h.of_bind h.closeGraph fun _ => h.of_get (fun w room => rfl) fun w => ?_
  split
  · exact h.of_throw _ (by decide)
  · exact h.of_pure _

end IsModular

/-! ## What is written stays -/

/-- Whether an operation leaves what was written, whatever it adds. -/
def Appends {α : Type} (x : Writing α) : Prop :=
  ∀ w a w', x w = .ok a w' → ∃ more, w'.device.contents = w.device.contents ++ more

theorem Appends.bind {α β : Type} {x : Writing α} {f : α → Writing β} (hx : Appends x)
    (hf : ∀ a, Appends (f a)) : Appends (x >>= f) := by
  intro w b w' h
  change EStateM.bind x f w = _ at h
  unfold EStateM.bind at h
  split at h
  · next a w₁ hw₁ =>
    obtain ⟨more, hmore⟩ := hx w a w₁ hw₁
    obtain ⟨more', hmore'⟩ := hf a w₁ b w' h
    exact ⟨more ++ more', by rw [hmore', hmore, List.append_assoc]⟩
  · cases h

theorem appends_pure {α : Type} (a : α) : Appends (pure a : Writing α) := by
  intro w b w' h
  cases h
  exact ⟨[], (List.append_nil _).symm⟩

theorem device_of_modify {f : Writer → Writer}
    (hf : ∀ w d, f { w with device := d } = { f w with device := d }) (w : Writer) :
    (f w).device = w.device := by
  have hsame := congrArg Writer.device (hf w w.device)
  exact hsame

theorem appends_modify {f : Writer → Writer}
    (hf : ∀ w d, f { w with device := d } = { f w with device := d }) :
    Appends (modify f : Writing Unit) := by
  intro w a w' h
  cases h
  refine ⟨[], ?_⟩
  rw [List.append_nil]
  exact congrArg Device.contents (device_of_modify hf w)

theorem appends_put (text : String) : Appends (put text) := by
  intro w a w' h
  unfold put Device.write at h
  cases hroom : w.device.room with
  | none =>
    rw [hroom] at h
    cases h
    exact ⟨encode text, contents_wrote w text⟩
  | some room =>
    rw [hroom] at h
    dsimp only at h
    split at h
    · cases h
      refine ⟨(encode text).take room, ?_⟩
      rw [Device.contents, Device.contents, List.reverse_append, List.reverse_reverse]
    · cases h

theorem isModular_appends : IsModular Appends where
  of_pure := appends_pure
  of_throw e _ := fun w a w' h => by
    change EStateM.Result.error e w = .ok a w' at h
    cases h
  of_put := appends_put
  of_modify hf _ := appends_modify hf
  of_bind := Appends.bind
  of_get _ hf := fun w => hf w w

theorem appends_declare (space : Namespace) : Appends (declare space) :=
  isModular_appends.declare (appends_modify fun _ _ => rfl)

end Writer
end TidyTrig.Trig
