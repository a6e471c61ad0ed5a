import TidyTrig.Proofs.Sink.Watching
import TidyTrig.Proofs.Trig.Writer

/-!
# Calls that go on after failures

A sink may be called on after one of its calls has failed. `replies` makes calls one after the other
whatever they answer, and keeps of each what it answered and the states around it. A call that fails
and leaves the sink as it was can be left out (`replies_filter`). A writer fails in this way where a
statement is one that no document can hold, and nowhere else (`replies_rejected`).
-/

namespace TidyTrig

open Recorder (Call)

/-- A call of a sink with its answer, and the states before and after it. -/
structure Reply (σ : Type) where
  call : Call
  before : σ
  answer : Except SinkError Unit
  after : σ

section

variable {σ : Type} [StatementSink σ]

def Recorder.Call.reply (call : Call) (s : σ) : Reply σ where
  call := call
  before := s
  answer := (ended (call.perform s)).1
  after := (ended (call.perform s)).2

theorem ended_perform (call : Call) (s : σ) :
    ended (call.perform s) = ((call.reply s).answer, (call.reply s).after) := rfl

/-- A run of calls succeeds just if each of them does. -/
theorem performAll_cons_eq_ok_iff {call : Call} {rest : List Call} {s s' : σ} :
    performAll (call :: rest) s = .ok () s'
      ↔ (call.reply s).answer = .ok () ∧ performAll rest (call.reply s).after = .ok () s' := by
  rw [performAll, throughSink, Call.reply]
  cases hcall : call.perform s with
  | ok a next =>
    rw [adaptExcept_bind_of_ok hcall]
    exact (and_iff_right rfl).symm
  | error e next =>
    rw [adaptExcept_bind_of_error hcall]
    constructor
    · rintro ⟨⟩
    · rintro ⟨⟨⟩, -⟩

/-- Makes calls one after the other, those that fail included. -/
def replies : List Call → σ → List (Reply σ)
  | [], _ => []
  | call :: rest, s => call.reply s :: replies rest (call.reply s).after

/-- What holds at the start and is kept by every call holds before every call. -/
theorem before_of_mem_replies (p : σ → Prop)
    (hkept : ∀ (call : Call) (s : σ), p s → p (call.reply s).after) {calls : List Call} {s : σ}
    (hs : p s) : ∀ r ∈ replies calls s, p r.before ∧ r = r.call.reply r.before := by
  induction calls generalizing s with
  | nil => exact fun r hr => nomatch hr
  | cons call rest ih =>
    intro r hr
    rcases List.mem_cons.1 hr with rfl | hr
    · exact ⟨hs, rfl⟩
    · exact ih (hkept call s hs) r hr

/-- Calls that leave the sink as it was can be left out: the others have the same answers, from the
same states. -/
theorem replies_filter (keeps : Call → Bool)
    (hkeeps : ∀ (call : Call) (s : σ), keeps call = false → (call.reply s).after = s)
    (calls : List Call) (s : σ) :
    (replies calls s).filter (fun r => keeps r.call) = replies (calls.filter keeps) s := by
  induction calls generalizing s with
  | nil => rfl
  | cons call rest ih =>
    have hreply : (call.reply s).call = call := rfl
    rw [replies, List.filter_cons, List.filter_cons, hreply]
    cases hcall : keeps call with
    | true => rw [if_pos rfl, if_pos rfl, ih, replies]
    | false => rw [if_neg Bool.false_ne_true, if_neg Bool.false_ne_true, ih, hkeeps call s hcall]

end

/-! ## Statements that are rejected -/

/-- A statement is a misfit just if its subject or the name of its graph is a literal or its predicate
is no IRI. -/
theorem Statement.misfit?_isSome_iff (s : Statement) :
    s.misfit?.isSome ↔ s.subject.isResource = false ∨ s.predicate.iri? = none
      ∨ ∃ name ∈ s.graph, name.isResource = false := by
  obtain ⟨graph, subject, predicate, object⟩ := s
  cases graph <;> cases hs : subject.isResource <;> cases hp : predicate.iri? <;>
    simp [misfit?, hs, hp]

/-- Whether a call gives a statement that no document can hold. -/
def Recorder.Call.isRejected : Call → Bool
  | .add s => s.misfit?.isSome
  | _ => false

namespace Trig

/-- A rejected statement changes nothing, whatever the state. -/
theorem Writer.add_of_misfit {s : Statement} {cause : Statement.Misfit}
    (h : s.misfit? = some cause) (w : Writer) :
    (Call.add s).reply w = ⟨.add s, w, .error (.misfit s cause), w⟩ := by
  have hadd : (Call.add s).perform w = .error (.misfit s cause) w := by
    show Writer.add s w = _
    unfold Writer.add
    rw [h]
    rfl
  rw [Call.reply, hadd]
  rfl

theorem Writer.after_of_isRejected {call : Call} (hcall : call.isRejected) (w : Writer) :
    (call.reply w).after = w := by
  cases call with
  | add s =>
    obtain ⟨cause, hcause⟩ := Option.isSome_iff_exists.1 hcall
    rw [add_of_misfit hcause]
  | start | declare | finish => cases hcall

namespace Writer.IsFree

variable {w : Writer} (h : w.IsFree)
include h

/-- Every other call succeeds without limits, and leaves the writer without them. -/
theorem reply_of_not_isRejected {call : Call} (hcall : call.isRejected = false) :
    (call.reply w).answer = .ok () ∧ (call.reply w).after.IsFree := by
  have hperform : ∃ w', call.perform w = .ok () w' ∧ w'.IsFree := by
    cases call with
    | start => exact ⟨w, rfl, h⟩
    | declare space => exact h.declare space
    | add s => exact h.add (Option.not_isSome_iff_eq_none.1 (Bool.eq_false_iff.1 hcall))
    | finish =>
      obtain ⟨w', hclose, hfree, -⟩ := h.closeGraph
      exact ⟨w', finish_ok hclose hfree.flushes, hfree⟩
  obtain ⟨w', hperform, hfree⟩ := hperform
  rw [Call.reply, hperform]
  exact ⟨rfl, hfree⟩

theorem after_reply (call : Call) : (call.reply w).after.IsFree := by
  by_cases hcall : call.isRejected
  · rw [after_of_isRejected hcall]
    exact h
  · exact (h.reply_of_not_isRejected (Bool.not_eq_true _ ▸ hcall)).2

/-- Without limits a call fails just if it is rejected. -/
theorem answer_eq_ok_iff (call : Call) :
    (call.reply w).answer = .ok () ↔ call.isRejected = false := by
  cases hcall : call.isRejected with
  | false => exact iff_of_true (h.reply_of_not_isRejected hcall).1 rfl
  | true =>
    refine iff_of_false ?_ nofun
    cases call with
    | add s =>
      obtain ⟨cause, hcause⟩ := Option.isSome_iff_exists.1 hcall
      rw [add_of_misfit hcause]
      exact nofun
    | start | declare | finish => cases hcall

/-- Without limits a statement is answered as a misfit just if it is one. -/
theorem answer_eq_misfit_iff (s : Statement) :
    (∃ cause, ((Call.add s).reply w).answer = .error (.misfit s cause)) ↔ s.misfit?.isSome := by
  cases hs : s.misfit? with
  | none =>
    rw [(h.answer_eq_ok_iff (.add s)).2 (congrArg Option.isSome hs)]
    exact iff_of_false nofun nofun
  | some cause =>
    rw [add_of_misfit hs]
    exact iff_of_true ⟨cause, rfl⟩ rfl

end Writer.IsFree

/-- Without limits a call fails just if it gives a statement whose subject or graph name is a literal
or whose predicate is no IRI, and the failure names that statement. Such calls leave no trace wherever
they stand: each of the other calls is made in the same state as if they had not been made, answers the
same and leaves the same state, and so writes the same. -/
theorem replies_rejected (layout : Layout) (calls : List Call) :
    (∀ r ∈ replies calls (Writer.start .unlimited layout),
      (∀ s, r.call = .add s →
        ((∃ cause, r.answer = .error (.misfit s cause)) ↔
          s.subject.isResource = false ∨ s.predicate.iri? = none
            ∨ ∃ name ∈ s.graph, name.isResource = false))
        ∧ (r.answer = .ok () ↔ r.call.isRejected = false)
        ∧ (r.call.isRejected → r.after = r.before))
      ∧ (replies calls (Writer.start .unlimited layout)).filter (fun r => !r.call.isRejected)
        = replies (calls.filter (!·.isRejected)) (Writer.start .unlimited layout) := by
  constructor
  · intro r hr
    obtain ⟨hfree, hreply⟩ := before_of_mem_replies Writer.IsFree
      (fun call w hw => hw.after_reply call) (Writer.isFree_start layout) r hr
    refine ⟨?_, ?_, ?_⟩
    · intro s hs
      rw [hreply, hs, hfree.answer_eq_misfit_iff, Statement.misfit?_isSome_iff]
    · rw [hreply]
      exact hfree.answer_eq_ok_iff r.call
    · intro hcall
      rw [hreply]
      exact Writer.after_of_isRejected hcall r.before
  · apply replies_filter fun call => !call.isRejected
    intro call w hcall
    rw [Bool.not_eq_false'] at hcall
    exact Writer.after_of_isRejected hcall w

end Trig
end TidyTrig
