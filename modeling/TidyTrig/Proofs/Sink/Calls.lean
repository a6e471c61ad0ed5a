import TidyTrig.Canonical
import TidyTrig.Proofs.Events
import TidyTrig.Proofs.Rdf.Order
import TidyTrig.Sink.Recorder
import TidyTrig.Trig.Writer

/-!
# What a sink is called with

Bringing a document into a sink is making a fixed list of calls, whatever the sink (`canonicalize_eq`):
its declarations as they come, and if it turns out to be whole, its sorted statements. Documents of the
same content are therefore the same to a sink (`canonicalize_eq_of_perm`).
-/

namespace TidyTrig

open Recorder (Call)

section

variable {σ : Type} [StatementSink σ]

/-- A call as a step of a sink. -/
def Recorder.Call.perform : Call → EStateM SinkError σ Unit
  | .start => StatementSink.start
  | .declare space => StatementSink.declare space
  | .add s => StatementSink.add s
  | .finish => StatementSink.finish

/-- Calls one after the other, up to the first that fails. -/
def performAll : List Call → EStateM Failure σ Unit
  | [] => pure ()
  | call :: rest => do
    throughSink call.perform
    performAll rest

theorem performAll_append (calls more : List Call) :
    (performAll (calls ++ more) : EStateM Failure σ Unit)
      = (performAll calls >>= fun _ => performAll more) := by
  induction calls with
  | nil => rfl
  | cons call rest ih =>
    rw [List.cons_append, performAll, ih, performAll, bind_assoc]

theorem addAll_eq_performAll (ss : List Statement) :
    (addAll ss : EStateM Failure σ Unit) = performAll (ss.map .add) := by
  induction ss with
  | nil => rfl
  | cons s rest ih =>
    rw [addAll, ih]
    rfl

end

/-! ## What ends a document -/

/-- Whether an event neither makes a document malformed nor stops the reading of it. -/
def Event.isHarmless : Event → Bool
  | .problem p => !p.isError
  | .aborted _ | .unreadable _ => false
  | _ => true

/-- Whether nothing that comes after an event counts. -/
def Event.isTerminal (e : Event) : Bool := e = .finished || !e.isHarmless

/-- The events that count but the last. -/
def front (events : List Event) : List Event := events.takeWhile (!·.isTerminal)

/-- The last event that counts, if it is not the list that ends. -/
def terminal? (events : List Event) : Option Event := events.find? Event.isTerminal

/-- Whether a document is all there and has no error. -/
def isWhole (events : List Event) : Bool := (terminal? events).all (· = .finished)

/-- The answer for a document that ends with this event, if the sink never fails. -/
def verdict : Option Event → Except Failure Bool
  | none | some .finished => .ok true
  | some (.unreadable cause) => .error (.input cause)
  | some _ => .ok false

theorem verdict_eq_true_iff (events : List Event) :
    verdict (terminal? events) = .ok true ↔ isWhole events := by
  rw [isWhole]
  cases terminal? events with
  | none => exact iff_of_true rfl rfl
  | some e => cases e <;> simp [verdict]

theorem front_cons_of_isTerminal {e : Event} (h : e.isTerminal) (rest : List Event) :
    front (e :: rest) = [] :=
  List.takeWhile_cons_of_neg (by simp [h])

theorem terminal?_cons_of_isTerminal {e : Event} (h : e.isTerminal) (rest : List Event) :
    terminal? (e :: rest) = some e :=
  List.find?_cons_of_pos h

theorem front_cons {e : Event} (h : e.isTerminal = false) (rest : List Event) :
    front (e :: rest) = e :: front rest :=
  List.takeWhile_cons_of_pos (by simp [h])

theorem terminal?_cons {e : Event} (h : e.isTerminal = false) (rest : List Event) :
    terminal? (e :: rest) = terminal? rest :=
  List.find?_cons_of_neg (by simp [h])

section

variable {events : List Event} (h : ∀ e ∈ events, e.isTerminal = false) {last : Event}
  (hlast : last.isTerminal) {more : List Event}
include h hlast

theorem front_append : front (events ++ last :: more) = events := by
  induction events with
  | nil => exact front_cons_of_isTerminal hlast more
  | cons e rest ih =>
    obtain ⟨he, hrest⟩ := List.forall_mem_cons.1 h
    rw [List.cons_append, front_cons he, ih hrest]

theorem terminal?_append : terminal? (events ++ last :: more) = some last := by
  induction events with
  | nil => exact terminal?_cons_of_isTerminal hlast more
  | cons e rest ih =>
    obtain ⟨he, hrest⟩ := List.forall_mem_cons.1 h
    rw [List.cons_append, terminal?_cons he, ih hrest]

end

theorem of_terminal?_eq_some {events : List Event} {e : Event} (h : terminal? events = some e) :
    e ∈ events ∧ e.isTerminal :=
  ⟨List.mem_of_find?_eq_some h, List.find?_some h⟩

section

variable {events : List Event} (hopen : ∀ e ∈ events, e.isEnd = false)
include hopen

/-- Before the reading of a document ends, errors alone are terminal. -/
theorem forall_isTerminal_iff :
    (∀ e ∈ events, e.isTerminal = false) ↔ ∀ p ∈ problemsOf events, p.isError = false := by
  induction events with
  | nil => simp
  | cons e rest ih =>
    obtain ⟨he, hrest⟩ := List.forall_mem_cons.1 hopen
    rw [List.forall_mem_cons, ih hrest, problemsOf_cons]
    cases e with
    | problem p => simp [Event.isTerminal, Event.isHarmless, Event.problem?]
    | declaration | statement => simp [Event.isTerminal, Event.isHarmless, Event.problem?]
    | finished | aborted | unreadable => cases he

theorem exists_terminal? (h : ¬∀ e ∈ events, e.isTerminal = false) (more : List Event) :
    ∃ p, terminal? (events ++ more) = some (.problem p) := by
  have hsome : (terminal? events).isSome := by
    rw [terminal?, List.find?_isSome]
    simpa using h
  obtain ⟨e, he⟩ := Option.isSome_iff_exists.1 hsome
  obtain ⟨hmem, hterminal⟩ := of_terminal?_eq_some he
  have hend := hopen e hmem
  rw [terminal?, List.find?_append, ← terminal?, he]
  cases e with
  | problem p => exact ⟨p, rfl⟩
  | declaration | statement => cases hterminal
  | finished | aborted | unreadable => cases hend

end

/-! ## All calls of a document -/

/-- The calls that bring declarations and statements into a sink. -/
def canonicalCalls (declarations : List Namespace) (statements : List Statement) : List Call :=
  .start :: (declarations.map .declare ++ ((Statement.sort statements).map .add ++ [.finish]))

/-- The calls that are made for a document if none of them fails. -/
def plannedCalls (events : List Event) : List Call :=
  if isWhole events then
    canonicalCalls (declarationsOf (front events)) (statementsOf (front events))
  else .start :: (declarationsOf (front events)).map .declare

section

variable {σ : Type} [StatementSink σ]

/-- Declarations are passed on in their order, and statements are collected. -/
theorem forward_eq_performAll (events : List Event) (buffer : List Statement) :
    (forward buffer events : EStateM Failure σ (Option (List Statement)))
      = (performAll ((declarationsOf (front events)).map .declare) >>= fun _ => do
          let isWritten : Bool ← MonadExcept.ofExcept (verdict (terminal? events))
          pure (if isWritten then some ((statementsOf (front events)).reverse ++ buffer)
            else none)) := by
  induction events generalizing buffer with
  | nil => rfl
  | cons e rest ih =>
    cases hterminal : e.isTerminal with
    | true =>
      rw [front_cons_of_isTerminal hterminal, terminal?_cons_of_isTerminal hterminal]
      cases e with
      | problem p =>
        have hp : p.isError = true := by simpa [Event.isTerminal, Event.isHarmless] using hterminal
        rw [forward, if_pos hp]
        rfl
      | declaration | statement => cases hterminal
      | finished | aborted | unreadable => rfl
    | false =>
      rw [front_cons hterminal, terminal?_cons hterminal]
      cases e with
      | declaration space =>
        rw [forward, ih, declarationsOf_cons]
        show _ = (performAll (.declare space :: _) >>= _)
        rw [performAll, bind_assoc]
        rfl
      | statement s =>
        rw [forward, ih, statementsOf_cons, declarationsOf_cons]
        show _ = (_ >>= fun _ => _ >>= fun isWritten : Bool =>
          pure (if isWritten then some ((s :: _).reverse ++ buffer) else none))
        rw [List.reverse_cons, List.append_assoc]
        rfl
      | problem p =>
        have hp : p.isError = false := by
          simpa [Event.isTerminal, Event.isHarmless] using hterminal
        rw [forward, hp, if_neg Bool.false_ne_true, ih]
        rfl
      | finished | aborted | unreadable => cases hterminal

/-- Bringing a document into a sink is making the planned calls, and answering when all were made. -/
theorem canonicalize_eq (events : List Event) :
    (canonicalize events : EStateM Failure σ Bool)
      = (performAll (plannedCalls events) >>= fun _ =>
          MonadExcept.ofExcept (verdict (terminal? events))) := by
  unfold canonicalize plannedCalls
  simp only [forward_eq_performAll events [], bind_assoc]
  split
  · next hwhole =>
    -- All statements were collected, the latest first.
    rw [(verdict_eq_true_iff events).2 hwhole, canonicalCalls, performAll, performAll_append,
      performAll_append, ← addAll_eq_performAll]
    simp only [performAll, bind_assoc, MonadExcept.ofExcept, pure_bind, if_true, List.append_nil,
      List.reverse_reverse]
    rfl
  · next hbroken =>
    -- Whatever was collected is left.
    rw [performAll, bind_assoc]
    cases hverdict : verdict (terminal? events) with
    | error failure => rfl
    | ok isWritten =>
      cases isWritten with
      | true => exact absurd ((verdict_eq_true_iff events).1 hverdict) hbroken
      | false => rfl

end

section

variable {events : List Event} (hopen : ∀ e ∈ events, e.isEnd = false)
  (herror : ¬∀ p ∈ problemsOf events, p.isError = false) (more : List Event)
include hopen herror

/-- At the first error a document is known to be malformed, and is given up. -/
theorem canonicalize_eq_of_isError {σ : Type} [StatementSink σ] :
    (canonicalize (events ++ more) : EStateM Failure σ Bool)
      = (performAll (plannedCalls (events ++ more)) >>= fun _ => pure false) := by
  rw [← forall_isTerminal_iff hopen] at herror
  obtain ⟨p, hterminal⟩ := exists_terminal? hopen herror more
  rw [canonicalize_eq, hterminal]
  rfl

theorem plannedCalls_of_isError :
    plannedCalls (events ++ more)
      = .start :: (declarationsOf (front (events ++ more))).map .declare := by
  rw [← forall_isTerminal_iff hopen] at herror
  obtain ⟨p, hterminal⟩ := exists_terminal? hopen herror more
  rw [plannedCalls, isWhole, hterminal]
  rfl

end

/-! ## Documents without errors -/

/-- The events before the end of a document. -/
def beforeEnd (events : List Event) : List Event := events.takeWhile (· ≠ .finished)

theorem beforeEnd_cons {e : Event} (h : e ≠ .finished) (rest : List Event) :
    beforeEnd (e :: rest) = e :: beforeEnd rest :=
  List.takeWhile_cons_of_pos (by simpa using h)

theorem front_eq_beforeEnd {events : List Event} (h : ∀ e ∈ beforeEnd events, e.isHarmless) :
    front events = beforeEnd events
      ∧ (terminal? events = none ∨ terminal? events = some .finished) := by
  induction events with
  | nil => exact ⟨rfl, .inl rfl⟩
  | cons e rest ih =>
    by_cases hend : e = .finished
    · subst hend
      exact ⟨rfl, .inr rfl⟩
    · rw [beforeEnd_cons hend] at h ⊢
      obtain ⟨he, hrest⟩ := List.forall_mem_cons.1 h
      have hterminal : e.isTerminal = false := by simp [Event.isTerminal, hend, he]
      rw [front_cons hterminal, terminal?_cons hterminal, (ih hrest).1]
      exact ⟨rfl, (ih hrest).2⟩

/-- A document without errors is brought into a sink by a list of calls that its declarations and
its sorted statements make up. -/
theorem canonicalize_eq_performAll {σ : Type} [StatementSink σ] {events : List Event}
    (h : ∀ e ∈ beforeEnd events, e.isHarmless) :
    (canonicalize events : EStateM Failure σ Bool)
      = (performAll (canonicalCalls (declarationsOf (beforeEnd events))
          (statementsOf (beforeEnd events))) >>= fun _ => pure true) := by
  obtain ⟨hfront, hterminal⟩ := front_eq_beforeEnd h
  rw [canonicalize_eq, plannedCalls, isWhole, hfront]
  rcases hterminal with hterminal | hterminal <;> rw [hterminal] <;> rfl

/-- Documents without errors that declare the same and state the same, however statements are
arranged and wherever declarations and warnings stand, make the same calls of any sink, and so are
written alike. -/
theorem canonicalize_eq_of_perm {events events' : List Event}
    (h : ∀ e ∈ beforeEnd events, e.isHarmless) (h' : ∀ e ∈ beforeEnd events', e.isHarmless)
    (hdeclarations : declarationsOf (beforeEnd events) = declarationsOf (beforeEnd events'))
    (hstatements : (statementsOf (beforeEnd events)).Perm (statementsOf (beforeEnd events')))
    (hunambiguous : ∀ s ∈ statementsOf (beforeEnd events), s.isUnambiguous) :
    ∃ calls : List Call,
      (∀ (σ : Type) [StatementSink σ],
        (canonicalize events : EStateM Failure σ Bool) = (performAll calls >>= fun _ => pure true)
          ∧ (canonicalize events' : EStateM Failure σ Bool)
            = (performAll calls >>= fun _ => pure true))
      ∧ ∀ (device : Device) (layout : Trig.Layout),
        canonicalize events (Trig.Writer.start device layout)
          = canonicalize events' (Trig.Writer.start device layout) := by
  have hsorted := Statement.sort_eq_of_perm hstatements hunambiguous
  have hcalls : canonicalCalls (declarationsOf (beforeEnd events)) (statementsOf (beforeEnd events))
      = canonicalCalls (declarationsOf (beforeEnd events'))
        (statementsOf (beforeEnd events')) := by
    rw [canonicalCalls, canonicalCalls, hdeclarations, hsorted]
  refine ⟨_, fun σ _ => ⟨canonicalize_eq_performAll h, ?_⟩, fun device layout => ?_⟩
  · rw [canonicalize_eq_performAll h', hcalls]
  · rw [canonicalize_eq_performAll h, canonicalize_eq_performAll h', hcalls]

/-- Two arrangements of a document, with a warning in one of them. Its literals look alike but for
what follows the last quote. -/
theorem canonicalize_eq_of_perm_tagged :
    ∃ calls : List Call,
      (∀ (σ : Type) [StatementSink σ],
        (canonicalize [.declaration ⟨"ex", "http://ex/"⟩,
            .statement ⟨none, .blank "b", .iri "http://ex/p", .literal (.simple "a\"@en")⟩,
            .statement ⟨none, .blank "b", .iri "http://ex/p", .literal (.tagged "a" "en")⟩,
            .finished] : EStateM Failure σ Bool) = (performAll calls >>= fun _ => pure true)
          ∧ (canonicalize [
              .statement ⟨none, .blank "b", .iri "http://ex/p", .literal (.tagged "a" "en")⟩,
              .problem ⟨.warning, "Unused", 1, -1⟩, .declaration ⟨"ex", "http://ex/"⟩,
              .statement ⟨none, .blank "b", .iri "http://ex/p", .literal (.simple "a\"@en")⟩] :
                EStateM Failure σ Bool) = (performAll calls >>= fun _ => pure true))
      ∧ ∀ (device : Device) (layout : Trig.Layout),
        canonicalize [.declaration ⟨"ex", "http://ex/"⟩,
            .statement ⟨none, .blank "b", .iri "http://ex/p", .literal (.simple "a\"@en")⟩,
            .statement ⟨none, .blank "b", .iri "http://ex/p", .literal (.tagged "a" "en")⟩,
            .finished] (Trig.Writer.start device layout)
          = canonicalize [
              .statement ⟨none, .blank "b", .iri "http://ex/p", .literal (.tagged "a" "en")⟩,
              .problem ⟨.warning, "Unused", 1, -1⟩, .declaration ⟨"ex", "http://ex/"⟩,
              .statement ⟨none, .blank "b", .iri "http://ex/p", .literal (.simple "a\"@en")⟩]
            (Trig.Writer.start device layout) :=
  canonicalize_eq_of_perm (by decide) (by decide) rfl (List.Perm.swap _ _ []) (by decide)

end TidyTrig
