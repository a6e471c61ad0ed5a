import Mathlib.Logic.Function.Basic
import TidyTrig.Marker

/-!
# Stores of markers

What a store of markers is trusted with: a cleared category is empty, a marker that was attached
stands last in its category, and a call that is refused changes nothing. `offer` gives a store some
diagnostics one after the other; `markers_offer` says that the category then goes on with those
that were accepted, in their order.
-/

namespace TidyTrig

/-- A store in which each category holds its markers in the order of their creation. -/
class LawfulMarkerStore (σ : Type) [MarkerStore σ] where
  /-- The markers of a category. -/
  markers : σ → String → List Diagnostic
  markers_of_clear_ok {category : String} {store store' : σ}
    (h : MarkerStore.clear category store = .ok () store') :
    markers store' = Function.update (markers store) category []
  markers_of_clear_error {category : String} {store store' : σ} {e : MarkerError}
    (h : MarkerStore.clear category store = .error e store') : markers store' = markers store
  markers_of_create_ok {category : String} {d : Diagnostic} {store store' : σ}
    (h : MarkerStore.create category d store = .ok () store') :
    markers store' = Function.update (markers store) category (markers store category ++ [d])
  markers_of_create_error {category : String} {d : Diagnostic} {store store' : σ} {e : MarkerError}
    (h : MarkerStore.create category d store = .error e store') : markers store' = markers store

/-! ## Stores in memory -/

namespace MarkerTable

theorem markers_clear (t : MarkerTable) (category : String) :
    (t.clear category).markers = Function.update t.markers category [] := by
  funext other
  rw [markers, clear, List.filter_filter]
  by_cases hother : other = category
  · subst hother
    rw [Function.update_self, List.map_eq_nil_iff, List.filter_eq_nil_iff]
    intro entry _
    simp
  · rw [Function.update_of_ne hother, markers]
    congr 2
    funext entry
    by_cases hentry : entry.1 = other
    · simp [hentry, hother]
    · simp [hentry]

theorem markers_create (t : MarkerTable) (category : String) (d : Diagnostic) :
    (t.create category d).markers
      = Function.update t.markers category (t.markers category ++ [d]) := by
  funext other
  rw [markers, create, List.filter_append, List.map_append]
  by_cases hother : other = category
  · subst hother
    rw [Function.update_self]
    simp [markers]
  · rw [Function.update_of_ne hother]
    simp [markers, Ne.symm hother]

instance : LawfulMarkerStore MarkerTable where
  markers := markers
  markers_of_clear_ok h := by
    cases h
    exact markers_clear _ _
  markers_of_clear_error h := by cases h
  markers_of_create_ok h := by
    cases h
    exact markers_create _ _ _
  markers_of_create_error h := by cases h

end MarkerTable

namespace GuardedMarkers

variable (store : GuardedMarkers) (category : String)

theorem clear_eq : MarkerStore.clear category store = match store.clearing with
    | some e => .error e store
    | none => .ok () { store with table := store.table.clear category } :=
  rfl

theorem create_eq (d : Diagnostic) : MarkerStore.create category d store =
    if d.severity ∈ store.refused then .error (MarkerError.rejected "refused") store
    else .ok () { store with table := store.table.create category d } :=
  rfl

instance : LawfulMarkerStore GuardedMarkers where
  markers store := store.table.markers
  markers_of_clear_ok h := by
    rw [clear_eq] at h
    split at h
    · cases h
    · cases h
      exact MarkerTable.markers_clear _ _
  markers_of_clear_error h := by
    rw [clear_eq] at h
    split at h
    · cases h
      rfl
    · cases h
  markers_of_create_ok h := by
    rw [create_eq] at h
    split at h
    · cases h
    · cases h
      exact MarkerTable.markers_create _ _ _
  markers_of_create_error h := by
    rw [create_eq] at h
    split at h
    · cases h
      rfl
    · cases h

end GuardedMarkers

/-- A table of markers that refuses any choice of calls. -/
structure MoodyMarkers where
  table : MarkerTable
  /-- How many calls there were. -/
  calls : Nat
  /-- Why a call is refused, by its number from zero. -/
  refusal? : Nat → Option MarkerError

namespace MoodyMarkers

/-- Changes the table, unless this call is refused. -/
def call (change : MarkerTable → MarkerTable) : EStateM MarkerError MoodyMarkers Unit := fun store =>
  match store.refusal? store.calls with
  | some e => .error e { store with calls := store.calls + 1 }
  | none => .ok () { store with table := change store.table, calls := store.calls + 1 }

instance : MarkerStore MoodyMarkers where
  clear category := call (·.clear category)
  create category d := call (·.create category d)

theorem table_of_call_ok {change : MarkerTable → MarkerTable} {store store' : MoodyMarkers}
    (h : call change store = .ok () store') : store'.table = change store.table := by
  unfold call at h
  split at h
  · cases h
  · cases h
    rfl

theorem table_of_call_error {change : MarkerTable → MarkerTable} {store store' : MoodyMarkers}
    {e : MarkerError} (h : call change store = .error e store') : store'.table = store.table := by
  unfold call at h
  split at h
  · cases h
    rfl
  · cases h

instance : LawfulMarkerStore MoodyMarkers where
  markers store := store.table.markers
  markers_of_clear_ok h := by rw [table_of_call_ok h, MarkerTable.markers_clear]
  markers_of_clear_error h := by rw [table_of_call_error h]
  markers_of_create_ok h := by rw [table_of_call_ok h, MarkerTable.markers_create]
  markers_of_create_error h := by rw [table_of_call_error h]

end MoodyMarkers

/-! ## Offering diagnostics -/

/-- What became of some diagnostics, and the store after them. -/
structure Offer (σ : Type) where
  accepted : List Diagnostic
  refused : List Diagnostic
  store : σ

/-- Gives a store diagnostics for a category, one after the other. -/
def offer {σ : Type} [MarkerStore σ] (category : String) : List Diagnostic → σ → Offer σ
  | [], store => ⟨[], [], store⟩
  | d :: rest, store =>
    match MarkerStore.create category d store with
    | .ok () store =>
      let later := offer category rest store
      { later with accepted := d :: later.accepted }
    | .error _ store =>
      let later := offer category rest store
      { later with refused := d :: later.refused }

section

variable {σ : Type} [MarkerStore σ] {category : String} {d : Diagnostic} {rest : List Diagnostic}
  {store store' : σ}

theorem offer_of_ok (h : MarkerStore.create category d store = .ok () store') :
    offer category (d :: rest) store
      = { offer category rest store' with
          accepted := d :: (offer category rest store').accepted } := by
  rw [offer, h]

theorem offer_of_error {e : MarkerError} (h : MarkerStore.create category d store = .error e store') :
    offer category (d :: rest) store
      = { offer category rest store' with
          refused := d :: (offer category rest store').refused } := by
  rw [offer, h]

open LawfulMarkerStore in
/-- A category goes on with what was accepted, and the other categories stay. -/
theorem markers_offer [LawfulMarkerStore σ] (category : String) (ds : List Diagnostic) (store : σ) :
    markers (offer category ds store).store
      = Function.update (markers store) category
        (markers store category ++ (offer category ds store).accepted) := by
  induction ds generalizing store with
  | nil =>
    rw [offer, List.append_nil, Function.update_eq_self]
  | cons d rest ih =>
    cases hcreate : MarkerStore.create category d store with
    | ok a store' =>
      rw [offer_of_ok hcreate, ih, markers_of_create_ok hcreate, Function.update_self,
        Function.update_idem, List.append_assoc]
      rfl
    | error e store' =>
      rw [offer_of_error hcreate, ih, markers_of_create_error hcreate]

end

end TidyTrig
