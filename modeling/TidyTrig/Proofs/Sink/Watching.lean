import TidyTrig.Proofs.Basic
import TidyTrig.Proofs.Sink.Calls

/-!
# Sinks that fail

A sink may fail at any call, and then nothing more is asked of it. To tell which calls were made of a
sink, it is watched: `Watched` notes each call with its failure, and changes nothing else. `Accounts`
says how the calls and the answer of a run fit together, which they do for every sink and every list
of events (`accounts_canonicalize`).
-/

namespace TidyTrig

open Recorder (Call)

/-- Calls in order, each with its failure if it has failed. -/
abbrev Log := List (Call × Option SinkError)

/-- A sink whose calls are noted. -/
structure Watched (σ : Type) where
  sink : σ
  log : Log

namespace Watched

variable {σ : Type} [StatementSink σ]

/-- Makes a call of the sink and notes it. -/
def note (call : Call) : EStateM SinkError (Watched σ) Unit := fun w =>
  match call.perform w.sink with
  | .ok () sink => .ok () ⟨sink, w.log ++ [(call, none)]⟩
  | .error e sink => .error e ⟨sink, w.log ++ [(call, some e)]⟩

instance : StatementSink (Watched σ) where
  start := note .start
  declare space := note (.declare space)
  add s := note (.add s)
  finish := note .finish

theorem perform_eq_note (call : Call) :
    (call.perform : EStateM SinkError (Watched σ) Unit) = note call := by
  cases call <;> rfl

end Watched

/-- How a run has ended: its answer and the state it leaves. -/
def ended {ε σ α : Type} : EStateM.Result ε σ α → Except ε α × σ
  | .ok a state => (.ok a, state)
  | .error e state => (.error e, state)

section

variable {σ : Type} [StatementSink σ]

/-- Calls are made up to the first that fails. -/
theorem performAll_watched (calls : List Call) (w : Watched σ) :
    (∃ sink, performAll calls w.sink = .ok () sink
      ∧ performAll calls w = .ok () ⟨sink, w.log ++ calls.map (·, none)⟩)
    ∨ ∃ made call rest e sink, calls = made ++ call :: rest
      ∧ performAll calls w.sink = .error (.sink e) sink
      ∧ performAll calls w
        = .error (.sink e) ⟨sink, w.log ++ (made.map (·, none) ++ [(call, some e)])⟩ := by
  induction calls generalizing w with
  | nil =>
    left
    exact ⟨w.sink, rfl, by rw [List.map_nil, List.append_nil]; rfl⟩
  | cons call calls ih =>
    have hnote : (call.perform : EStateM SinkError (Watched σ) Unit) w = Watched.note call w := by
      rw [Watched.perform_eq_note]
    rw [Watched.note] at hnote
    simp only [performAll, throughSink]
    cases hcall : call.perform w.sink with
    | error e sink =>
      right
      rw [hcall] at hnote
      refine ⟨[], call, calls, e, sink, rfl, adaptExcept_bind_of_error hcall, ?_⟩
      rw [adaptExcept_bind_of_error hnote]
      rfl
    | ok a sink =>
      -- The rest goes on where this call left the sink, with one note more.
      rw [hcall] at hnote
      rw [adaptExcept_bind_of_ok hcall, adaptExcept_bind_of_ok hnote]
      rcases ih ⟨sink, w.log ++ [(call, none)]⟩ with
        ⟨left, hplain, hwatched⟩ | ⟨made, failing, rest, e, left, hcalls, hplain, hwatched⟩
      · exact .inl ⟨left, hplain, by simp [hwatched]⟩
      · exact .inr ⟨call :: made, failing, rest, e, left, by rw [hcalls]; rfl, hplain,
          by simp [hwatched]⟩

/-- Watching a sink does not change a run, which makes all planned calls or ends with the first that
fails. -/
theorem canonicalize_watched (events : List Event) (sink : σ) :
    ∃ answer left log, ended (canonicalize events sink) = (answer, left)
      ∧ ended (canonicalize events (⟨sink, []⟩ : Watched σ)) = (answer, ⟨left, log⟩)
      ∧ (answer = verdict (terminal? events) ∧ log = (plannedCalls events).map (·, none)
        ∨ ∃ made call rest e, plannedCalls events = made ++ call :: rest
          ∧ answer = .error (.sink e) ∧ log = made.map (·, none) ++ [(call, some e)]) := by
  rw [canonicalize_eq, canonicalize_eq]
  -- What is answered after the calls does not touch the sink.
  rcases performAll_watched (plannedCalls events) (⟨sink, []⟩ : Watched σ) with
    ⟨left, hplain, hwatched⟩ | ⟨made, call, rest, e, left, hcalls, hplain, hwatched⟩
  · refine ⟨_, left, _, ?_, ?_, .inl ⟨rfl, rfl⟩⟩
    · show ended (EStateM.bind _ _ sink) = _
      rw [EStateM.bind, hplain]
      cases verdict (terminal? events) <;> rfl
    · show ended (EStateM.bind _ _ _) = _
      rw [EStateM.bind, hwatched]
      cases verdict (terminal? events) <;> rfl
  · refine ⟨_, left, _, ?_, ?_, .inr ⟨made, call, rest, e, hcalls, rfl, rfl⟩⟩
    · show ended (EStateM.bind _ _ sink) = _
      rw [EStateM.bind, hplain]
      rfl
    · show ended (EStateM.bind _ _ _) = _
      rw [EStateM.bind, hwatched]
      rfl

end

/-! ## Calls and answers -/

theorem verdict_eq_false_iff (events : List Event) :
    verdict (terminal? events) = .ok false
      ↔ (∃ p, terminal? events = some (.problem p))
        ∨ ∃ message, terminal? events = some (.aborted message) := by
  cases hlast : terminal? events with
  | none => simp [verdict]
  | some e =>
    have he := (of_terminal?_eq_some hlast).2
    cases e with
    | declaration | statement => cases he
    | finished | problem | aborted | unreadable => simp [verdict]

theorem verdict_eq_error_iff (events : List Event) (failure : Failure) :
    verdict (terminal? events) = .error failure
      ↔ ∃ cause, failure = .input cause ∧ terminal? events = some (.unreadable cause) := by
  cases terminal? events with
  | none => simp [verdict]
  | some e => cases e <;> simp [verdict, eq_comm]

theorem finish_mem_plannedCalls_iff (events : List Event) :
    .finish ∈ plannedCalls events ↔ isWhole events := by
  rw [plannedCalls]
  split <;> simp [canonicalCalls, *]

/-- Without its end, nothing of a document but declarations reaches a sink. -/
theorem eq_of_mem_plannedCalls {events : List Event} (h : isWhole events = false) {call : Call}
    (hcall : call ∈ plannedCalls events) : call = .start ∨ ∃ space, call = .declare space := by
  rw [plannedCalls, if_neg (Bool.not_eq_true _ ▸ h), List.mem_cons, List.mem_map] at hcall
  rcases hcall with hstart | ⟨space, -, hspace⟩
  · exact .inl hstart
  · exact .inr ⟨space, hspace.symm⟩

/-- How the calls of a sink and the answer fit together. -/
structure Accounts (events : List Event) (log : Log) (answer : Except Failure Bool) : Prop where
  /-- The calls are the first of those that were planned. -/
  planned : log.map Prod.fst <+: plannedCalls events
  /-- A call that fails is the last. -/
  last : ∀ n call e, log[n]? = some (call, some e) → n + 1 = log.length
  written : answer = .ok true
    ↔ .finish ∈ plannedCalls events ∧ log = (plannedCalls events).map (·, none)
  failed : ∀ e, answer = .error (.sink e) ↔ ∃ call, (call, some e) ∈ log
  malformed : answer = .ok false ↔ log = (plannedCalls events).map (·, none)
    ∧ ((∃ p, terminal? events = some (.problem p))
      ∨ ∃ message, terminal? events = some (.aborted message))
  unreadable : ∀ cause, answer = .error (.input cause)
    ↔ log = (plannedCalls events).map (·, none) ∧ terminal? events = some (.unreadable cause)
  /-- No other failure is answered. -/
  answered : ∀ failure, answer = .error failure →
    (∃ e, failure = .sink e) ∨ ∃ cause, failure = .input cause
  /-- Otherwise neither a statement nor the end has reached the sink. -/
  spared : answer ≠ .ok true → (∀ e, answer ≠ .error (.sink e)) →
    ∀ c ∈ log, c.1 = .start ∨ ∃ space, c.1 = .declare space

theorem map_fst_map_none (calls : List Call) :
    (calls.map (·, (none : Option SinkError))).map Prod.fst = calls := by
  simp [Function.comp_def]

/-- No call has failed. -/
theorem accounts_of_all (events : List Event) :
    Accounts events ((plannedCalls events).map (·, none)) (verdict (terminal? events)) where
  planned := ⟨[], by rw [map_fst_map_none, List.append_nil]⟩
  last := by simp
  written := by rw [verdict_eq_true_iff, finish_mem_plannedCalls_iff, and_iff_left rfl]
  failed := by simp [verdict_eq_error_iff]
  malformed := by rw [verdict_eq_false_iff, and_iff_right rfl]
  unreadable := by simp [verdict_eq_error_iff]
  answered := by
    intro failure h
    obtain ⟨cause, rfl, -⟩ := (verdict_eq_error_iff events failure).1 h
    exact .inr ⟨cause, rfl⟩
  spared := by
    intro hwritten _ c hc
    obtain ⟨call, hcall, rfl⟩ := List.mem_map.1 hc
    rw [ne_eq, verdict_eq_true_iff, Bool.not_eq_true] at hwritten
    exact eq_of_mem_plannedCalls hwritten hcall

/-- One of the calls has failed. -/
theorem accounts_of_failure {events : List Event} {made rest : List Call} {call : Call}
    (h : plannedCalls events = made ++ call :: rest) (e : SinkError) :
    Accounts events (made.map (·, none) ++ [(call, some e)]) (.error (.sink e)) := by
  -- A failure among the notes tells this run from one that made all calls.
  have hfailed : made.map (·, (none : Option SinkError)) ++ [(call, some e)]
      ≠ (plannedCalls events).map (·, none) := by
    intro heq
    have hmem : (call, some e) ∈ (plannedCalls events).map (·, none) := by simp [← heq]
    simp at hmem
  refine ⟨?_, ?_, ?_, ?_, ?_, ?_, ?_, ?_⟩
  · exact ⟨rest, by rw [List.map_append, map_fst_map_none, h]; simp⟩
  · intro n c e' hn
    rw [List.getElem?_append] at hn
    split at hn
    · simp at hn
    · next hlt =>
      have hzero := (List.getElem?_eq_some_iff.1 hn).1
      simp at hzero hlt ⊢
      omega
  · exact iff_of_false nofun fun hall => hfailed hall.2
  · simp [eq_comm]
  · exact iff_of_false nofun fun hall => hfailed hall.1
  · exact fun cause => iff_of_false nofun fun hall => hfailed hall.1
  · intro failure hfailure
    exact .inl ⟨e, (Except.error.inj hfailure).symm⟩
  · exact fun _ hnone => absurd rfl (hnone e)

/-- Nothing after the event that ends a document counts. -/
theorem plannedCalls_front_append (events : List Event) :
    terminal? (front events ++ (terminal? events).toList) = terminal? events
      ∧ plannedCalls (front events ++ (terminal? events).toList) = plannedCalls events := by
  have hboth : front (front events ++ (terminal? events).toList) = front events
      ∧ terminal? (front events ++ (terminal? events).toList) = terminal? events := by
    induction events with
    | nil => exact ⟨rfl, rfl⟩
    | cons e rest ih =>
      cases he : e.isTerminal with
      | true => simp [front_cons_of_isTerminal, terminal?_cons_of_isTerminal, he]
      | false => simp [front_cons, terminal?_cons, he, ih]
  refine ⟨hboth.2, ?_⟩
  rw [plannedCalls, plannedCalls, isWhole, isWhole, hboth.1, hboth.2]

/-- Whatever a sink does, bringing a document into it makes the calls that are planned for the
document, in their order, up to the first that fails. It answers that the document was written if
none failed and the end was among them; with the failure of the sink if one failed; else as the
document was ended, and then neither a statement nor the end has reached the sink. Events behind
the one that ends a document make no difference. -/
theorem accounts_canonicalize {σ : Type} [StatementSink σ] (events : List Event) (sink : σ) :
    ∃ answer left log, ended (canonicalize events sink) = (answer, left)
      ∧ ended (canonicalize events (⟨sink, []⟩ : Watched σ)) = (answer, ⟨left, log⟩)
      ∧ Accounts events log answer
      ∧ ended (canonicalize (front events ++ (terminal? events).toList) (⟨sink, []⟩ : Watched σ))
        = (answer, ⟨left, log⟩) := by
  obtain ⟨answer, left, log, hplain, hwatched, haccounts⟩ := canonicalize_watched events sink
  refine ⟨answer, left, log, hplain, hwatched, ?_, ?_⟩
  · rcases haccounts with ⟨rfl, rfl⟩ | ⟨made, call, rest, e, hcalls, rfl, rfl⟩
    · exact accounts_of_all events
    · exact accounts_of_failure hcalls e
  · obtain ⟨hterminal, hcalls⟩ := plannedCalls_front_append events
    rw [canonicalize_eq, hterminal, hcalls, ← canonicalize_eq]
    exact hwatched

end TidyTrig
