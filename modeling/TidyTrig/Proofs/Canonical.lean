import TidyTrig.Proofs.Basic
import TidyTrig.Proofs.Sink.Calls
import TidyTrig.Proofs.Trig.RoundTrip

/-!
# Canonical form is declarations, then sorted statements

Without errors, bringing events into a writer is giving it all declarations in their order and
then all statements in canonical order (`canonicalize_eq_writeAll`). With an error nothing is
complete (`canonicalize_eq_true_iff`).
-/

namespace TidyTrig

open Trig

/-! ## Steps of a sink as steps of a run -/

theorem throughSink_bind {σ α : Type} (step : EStateM SinkError σ Unit)
    (next : EStateM SinkError σ Unit) (k : Unit → EStateM Failure σ α) :
    (throughSink (step >>= fun _ => next) >>= k)
      = (throughSink step >>= fun _ => throughSink next >>= k) := by
  funext w
  show EStateM.bind (EStateM.adaptExcept _ (EStateM.bind step fun _ => next)) k w
    = EStateM.bind (EStateM.adaptExcept _ step)
      (fun _ => EStateM.bind (EStateM.adaptExcept _ next) k) w
  simp only [EStateM.bind, EStateM.adaptExcept]
  cases step w with
  | ok a w' => rfl
  | error e w' => rfl

/-! ## Bringing events into a writer -/

/-- What a document's canonical form is written from. -/
def canonicalEntries (declarations : List Namespace) (statements : List Statement) : List Entry :=
  declarations.map .declaration ++ (Statement.sort statements).map .statement

/-- The call that gives an entry to a writer. -/
def Trig.Entry.call : Entry → Recorder.Call
  | .declaration space => .declare space
  | .statement s => .add s

/-- Making the calls for some entries and the end is writing the entries. -/
theorem performAll_map_call {α : Type} (entries : List Entry)
    (k : Unit → EStateM Failure Writer α) :
    (performAll (entries.map Entry.call ++ [.finish]) >>= k)
      = (throughSink (Entry.writeAll entries) >>= k) := by
  induction entries with
  | nil =>
    show ((throughSink Writer.finish >>= fun _ => pure ()) >>= k) = _
    rw [bind_assoc]
    rfl
  | cons entry rest ih =>
    rw [List.map_cons, List.cons_append, performAll, bind_assoc, ih, Entry.writeAll, throughSink_bind]
    cases entry <;> rfl

/-- A writer is not told of its start. -/
theorem performAll_canonicalCalls {α : Type} (declarations : List Namespace)
    (statements : List Statement) (k : Unit → EStateM Failure Writer α) :
    (performAll (canonicalCalls declarations statements) >>= k)
      = (throughSink (Entry.writeAll (canonicalEntries declarations statements)) >>= k) := by
  have hcalls : declarations.map Recorder.Call.declare
        ++ ((Statement.sort statements).map Recorder.Call.add ++ [.finish])
      = (canonicalEntries declarations statements).map Entry.call ++ [.finish] := by
    rw [canonicalEntries, List.map_append, List.map_map, List.map_map, List.append_assoc]
    rfl
  rw [canonicalCalls, hcalls, ← performAll_map_call]
  rfl

/-- A writer without limits takes all declarations. -/
theorem exists_of_performAll_declare {w : Writer} (hw : w.IsFree) (spaces : List Namespace) :
    ∃ w', performAll (spaces.map .declare) w = .ok () w' := by
  induction spaces generalizing w with
  | nil => exact ⟨w, rfl⟩
  | cons space rest ih =>
    obtain ⟨w₁, hdeclare, hw₁⟩ := hw.declare space
    obtain ⟨w', hrest⟩ := ih hw₁
    exact ⟨w', (adaptExcept_bind_of_ok hdeclare).trans hrest⟩

section

variable {events : List Event} (hopen : ∀ e ∈ events, e.isEnd = false)
include hopen

/-- Without errors, the declarations are written and then the statements in canonical order. -/
theorem canonicalize_eq_writeAll (herror : ∀ p ∈ problemsOf events, p.isError = false) :
    canonicalize (events ++ [.finished])
      = (throughSink (Entry.writeAll
          (canonicalEntries (declarationsOf events) (statementsOf events)))
        >>= fun _ => pure true) := by
  have hterminal := (forall_isTerminal_iff hopen).2 herror
  rw [canonicalize_eq, plannedCalls, isWhole, front_append hterminal rfl,
    terminal?_append hterminal rfl, ← performAll_canonicalCalls]
  rfl

/-- A document is written just if it has no errors and a writer can be given all of it. -/
theorem canonicalize_eq_true_iff {w w' : Writer} :
    canonicalize (events ++ [.finished]) w = .ok true w'
      ↔ (∀ p ∈ problemsOf events, p.isError = false)
        ∧ Entry.writeAll (canonicalEntries (declarationsOf events) (statementsOf events)) w
          = .ok () w' := by
  by_cases herror : ∀ p ∈ problemsOf events, p.isError = false
  · rw [canonicalize_eq_writeAll hopen herror, and_iff_right herror]
    generalize canonicalEntries (declarationsOf events) (statementsOf events) = entries
    show EStateM.bind (EStateM.adaptExcept _ (Entry.writeAll entries)) _ w = _ ↔ _
    unfold EStateM.bind EStateM.adaptExcept
    cases Entry.writeAll entries w with
    | ok a w'' =>
      show EStateM.Result.ok true w'' = .ok true w' ↔ EStateM.Result.ok () w'' = .ok () w'
      rw [EStateM.Result.ok.injEq, EStateM.Result.ok.injEq]
      simp
    | error e w'' => exact ⟨nofun, nofun⟩
  · -- However the declarations fare, the answer is not that the document was written.
    rw [canonicalize_eq_of_isError hopen herror]
    refine iff_of_false ?_ fun h => herror h.1
    intro h
    change EStateM.bind (performAll _) _ w = _ at h
    unfold EStateM.bind at h
    split at h <;> cases h

/-- What has errors is not written. -/
theorem canonicalize_of_isError {p : Problem} (hp : p ∈ problemsOf events) (herror : p.isError)
    {w : Writer} (hw : w.IsFree) :
    ∃ w', canonicalize (events ++ [.finished]) w = .ok false w' := by
  have hbroken : ¬∀ p ∈ problemsOf events, p.isError = false := by
    intro hall
    rw [hall p hp] at herror
    cases herror
  rw [canonicalize_eq_of_isError hopen hbroken, plannedCalls_of_isError hopen hbroken]
  obtain ⟨w', hall⟩ := exists_of_performAll_declare hw
    (declarationsOf (front (events ++ [.finished])))
  refine ⟨w', ?_⟩
  show EStateM.bind (performAll (List.map _ _)) _ w = _
  rw [EStateM.bind, hall]
  rfl

end

/-- A writer without limits writes all entries, if each statement can be written. -/
theorem exists_of_writeAll {entries : List Entry}
    (h : ∀ s ∈ entries.filterMap Entry.statement?, s.misfit? = none) {w : Writer} (hw : w.IsFree) :
    ∃ w', Entry.writeAll entries w = .ok () w' := by
  induction entries generalizing w with
  | nil => exact hw.finish
  | cons entry rest ih =>
    have hstep : ∃ w₁, entry.write w = .ok () w₁ ∧ w₁.IsFree := by
      cases entry with
      | declaration space => exact hw.declare space
      | statement s => exact hw.add (h s List.mem_cons_self)
    have hrest : ∀ s ∈ rest.filterMap Entry.statement?, s.misfit? = none := by
      cases entry with
      | declaration space => exact h
      | statement s => exact fun s hs => h s (List.mem_cons_of_mem _ hs)
    obtain ⟨w₁, hwrite, hw₁⟩ := hstep
    obtain ⟨w', hlater⟩ := ih hrest hw₁
    exact ⟨w', (Writer.bind_ok hwrite).trans hlater⟩

end TidyTrig
