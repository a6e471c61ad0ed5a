import Mathlib.Data.List.Induction
import TidyTrig.Proofs.Trig.Capacity
import TidyTrig.Proofs.Trig.RoundTrip

/-!
# Abbreviated IRIs

A writer keeps one declaration of each name, the last, whatever it is called with otherwise
(`spaces_afterAll`, `filter_bindAll`). It abbreviates an IRI by the longest namespace that leaves a
plain name (`exists_of_abbreviates`). A reader who goes by the last declarations finds the same IRI
again (`expand?_abbreviation`), so that no stale or shorter namespace is ever mistaken for another.
-/

namespace TidyTrig

open Recorder (Call)

namespace Trig

/-! ## The latest declarations -/

/-- The last declaration of a name. -/
def lastOf? (declarations : List Namespace) (name : String) : Option Namespace :=
  (declarations.filter (·.name = name)).getLast?

/-- A name stands for its new declaration, and the others for what they stood. -/
theorem filter_bind (space : Namespace) {spaces : List Namespace}
    (hdistinct : (spaces.map Namespace.name).Nodup) (name : String) :
    (bind space spaces).filter (·.name = name)
      = if space.name = name then [space] else spaces.filter (·.name = name) := by
  induction spaces with
  | nil =>
    rw [bind, List.filter_cons]
    simp
  | cons first rest ih =>
    rw [List.map_cons, List.nodup_cons] at hdistinct
    rw [bind]
    by_cases hfirst : first.name = space.name
    · -- No declaration of the name comes after the one that is replaced.
      have hrest : space.name = name → rest.filter (·.name = name) = [] := by
        rintro rfl
        rw [List.filter_eq_nil_iff]
        intro other hother
        have hne : other.name ≠ first.name := fun heq =>
          hdistinct.1 (heq ▸ List.mem_map_of_mem hother)
        simpa [← hfirst] using hne
      rw [if_pos hfirst, List.filter_cons, List.filter_cons, hfirst]
      by_cases hname : space.name = name
      · simp [hname, hrest hname]
      · simp [hname]
    · rw [if_neg hfirst, List.filter_cons, List.filter_cons, ih hdistinct.2]
      by_cases hname : space.name = name
      · have hother : first.name ≠ name := hname ▸ hfirst
        simp [hname, hother]
      · simp only [if_neg hname]

/-- Declares spaces one after the other. -/
def bindAll (declarations spaces : List Namespace) : List Namespace :=
  declarations.foldl (fun spaces space => bind space spaces) spaces

theorem nodup_bindAll (declarations : List Namespace) :
    ((bindAll declarations []).map Namespace.name).Nodup := by
  induction declarations using List.reverseRecOn with
  | nil => exact List.nodup_nil
  | append_singleton earlier space ih =>
    rw [bindAll, List.foldl_append]
    exact nodup_bind space ih

/-- Of each name there is one declaration, the last. -/
theorem filter_bindAll (declarations : List Namespace) (name : String) :
    (bindAll declarations []).filter (·.name = name) = (lastOf? declarations name).toList := by
  -- The induction is on the last declaration, which is bound last and found first.
  induction declarations using List.reverseRecOn with
  | nil => rfl
  | append_singleton earlier space ih =>
    have hlast : bindAll (earlier ++ [space]) [] = bind space (bindAll earlier []) := by
      rw [bindAll, List.foldl_append]
      rfl
    rw [hlast, filter_bind space (nodup_bindAll earlier), ih, lastOf?, lastOf?, List.filter_append,
      List.filter_singleton]
    by_cases hname : space.name = name <;> simp [hname]

namespace Writer

/-! ## What a writer declares -/

variable {α β : Type}

/-- Whether an operation leaves the declarations in force, even where it fails. -/
def KeepsSpaces (x : Writing α) : Prop := ∀ w, (ended (x w)).2.spaces = w.spaces

theorem KeepsSpaces.bind {x : Writing α} {f : α → Writing β} (hx : KeepsSpaces x)
    (hf : ∀ a, KeepsSpaces (f a)) : KeepsSpaces (x >>= f) := by
  intro w
  have hfirst := hx w
  rw [ended_bind]
  generalize ended (x w) = first at hfirst
  obtain ⟨answer, w₁⟩ := first
  cases answer with
  | error e => exact hfirst
  | ok a => exact (hf a w₁).trans hfirst

theorem keepsSpaces_put (text : String) : KeepsSpaces (put text) := by
  intro w
  unfold put
  dsimp only
  split <;> rfl

theorem isModular_keepsSpaces : IsModular KeepsSpaces where
  of_pure _ := fun _ => rfl
  of_throw _ _ := fun _ => rfl
  of_put := keepsSpaces_put
  of_modify _ hf := hf
  of_bind := KeepsSpaces.bind
  of_get _ hf := fun w => hf w w

/-- Whether an operation, if it succeeds, has declared a space and nothing else. -/
def Declares (space : Namespace) (x : Writing Unit) : Prop :=
  ∀ w w', x w = .ok () w' → w'.spaces = Trig.bind space w.spaces

theorem KeepsSpaces.declares {x : Writing α} {f : α → Writing Unit} {space : Namespace}
    (hx : KeepsSpaces x) (hf : ∀ a, Declares space (f a)) : Declares space (x >>= f) := by
  intro w w' h
  have hkept := hx w
  change EStateM.bind x f w = _ at h
  unfold EStateM.bind at h
  split at h
  · next a w₁ hw₁ =>
    rw [hw₁] at hkept
    rw [hf a w₁ w' h]
    exact congrArg (Trig.bind space) hkept
  · cases h

theorem declares_declare (space : Namespace) : Declares space (declare space) := by
  have hlast : Declares space (do
      put ("@prefix " ++ space.name ++ ": <" ++ space.iri ++ "> .\n")
      modify fun w => { w with spaces := Trig.bind space w.spaces, hasWritten := true }) := by
    refine (keepsSpaces_put _).declares fun _ w w' h => ?_
    cases h
    rfl
  have hget : KeepsSpaces (get : Writing Writer) := fun _ => rfl
  unfold declare
  refine hget.declares fun w => ?_
  dsimp only
  -- An open graph is closed first, and closing declares nothing.
  split
  · exact isModular_keepsSpaces.closeGraph.declares fun _ => (keepsSpaces_put _).declares fun _ => hlast
  · exact hlast

end Writer
end Trig

/-! ## What calls declare -/

/-- What a call is to declare. -/
def Recorder.Call.declaration? : Call → Option Namespace
  | .declare space => some space
  | _ => none

/-- The state after some calls, those that fail included. -/
def afterAll {σ : Type} [StatementSink σ] (calls : List Call) (s : σ) : σ :=
  calls.foldl (fun s call => (call.reply s).after) s

namespace Trig

open Writer

/-- A call that succeeds declares what it is to declare. -/
theorem spaces_reply {call : Call} {w : Writer}
    (h : call.isRejected = false → (call.reply w).answer = .ok ()) :
    (call.reply w).after.spaces = bindAll call.declaration?.toList w.spaces := by
  cases call with
  | start => rfl
  | declare space =>
    have hanswer := h rfl
    have hdeclares := declares_declare space w
    change (ended (declare space w)).1 = _ at hanswer
    show (ended (declare space w)).2.spaces = _
    generalize declare space w = result at hanswer hdeclares
    cases result with
    | ok a w' => exact hdeclares w' rfl
    | error e w' => cases hanswer
  | add s => exact isModular_keepsSpaces.add s w
  | finish => exact isModular_keepsSpaces.finish w

/-- On an output that does not fail, all that is to be declared is declared. -/
theorem spaces_afterAll {calls : List Call} {w : Writer}
    (h : ∀ r ∈ replies calls w, r.call.isRejected = false → r.answer = .ok ()) :
    (afterAll calls w).spaces = bindAll (calls.filterMap Call.declaration?) w.spaces := by
  induction calls generalizing w with
  | nil => rfl
  | cons call rest ih =>
    rw [replies, List.forall_mem_cons] at h
    have hnext : (call.reply w).after.spaces = bindAll call.declaration?.toList w.spaces :=
      spaces_reply h.1
    show (afterAll rest (call.reply w).after).spaces = _
    rw [ih h.2, hnext, List.filterMap_cons]
    cases call.declaration? <;> rfl

/-! ## Abbreviating -/

/-- Whether an IRI is a namespace of these followed by a plain name. -/
def Abbreviates (spaces : List Namespace) (iri : String) (space : Namespace) (name : String) : Prop :=
  space ∈ spaces ∧ iri = space.iri ++ name ∧ isPlainName name.toList

section

variable {spaces : List Namespace} {iri name : String} {space : Namespace}

theorem mem_abbreviations_iff :
    (space, name.toList) ∈ abbreviations spaces iri ↔ Abbreviates spaces iri space name := by
  constructor
  · intro h
    obtain ⟨hspace, hiri, hplain⟩ := of_mem_abbreviations h
    exact ⟨hspace, String.toList_inj.1 (by rw [hiri, String.toList_append]), hplain⟩
  · rintro ⟨hspace, rfl, hplain⟩
    refine List.mem_filterMap.2 ⟨space, hspace, ?_⟩
    rw [String.toList_append, List.isPrefixOf?_eq_some_iff_append_eq.2 rfl]
    exact if_pos hplain

/-- There is a longest one if there is any. -/
theorem longest_eq_none_iff {candidates : List (Namespace × List Char)} :
    longest candidates = none ↔ candidates = [] := by
  cases candidates with
  | nil => exact iff_of_true rfl rfl
  | cons first rest =>
    refine iff_of_false ?_ (List.cons_ne_nil _ _)
    rw [longest]
    split
    · split <;> exact Option.some_ne_none _
    · exact Option.some_ne_none _

/-- None is longer than the longest. -/
theorem length_le_of_longest {candidates : List (Namespace × List Char)}
    {a b : Namespace × List Char} (h : longest candidates = some a) (hb : b ∈ candidates) :
    b.1.iri.length ≤ a.1.iri.length := by
  induction candidates generalizing a b with
  | nil => cases hb
  | cons first rest ih =>
    rw [longest] at h
    split at h
    · next other hother =>
      -- The longest of the rest is compared with the first.
      have hrest : ∀ b ∈ rest, b.1.iri.length ≤ other.1.iri.length := fun b hb => ih hother hb
      split at h
      · next hlt =>
        cases h
        rcases List.mem_cons.1 hb with rfl | hb
        · exact Nat.le_refl _
        · exact Nat.le_trans (hrest b hb) (Nat.le_of_lt hlt)
      · next hle =>
        cases h
        rcases List.mem_cons.1 hb with rfl | hb
        · exact Nat.le_of_not_lt hle
        · exact hrest b hb
    · next hnone =>
      cases h
      rw [longest_eq_none_iff.1 hnone, List.mem_singleton] at hb
      exact Nat.le_of_eq (congrArg (fun c => c.1.iri.length) hb)

/-- An IRI is written between brackets if it cannot be abbreviated. -/
theorem spellIri_of_forall (h : ∀ space name, ¬Abbreviates spaces iri space name) :
    spellIri spaces iri = "<" ++ iri ++ ">" := by
  have hnone : abbreviations spaces iri = [] := by
    rw [List.eq_nil_iff_forall_not_mem]
    rintro ⟨space, name⟩ hmem
    refine h space (.ofList name) (mem_abbreviations_iff.1 ?_)
    rwa [String.toList_ofList]
  rw [spellIri, hnone]
  rfl

/-- Else it is abbreviated by a namespace as long as any. -/
theorem exists_of_abbreviates (h : Abbreviates spaces iri space name) :
    ∃ space' name', Abbreviates spaces iri space' name'
      ∧ spellIri spaces iri = space'.name ++ ":" ++ name'
      ∧ ∀ other name'', Abbreviates spaces iri other name'' →
        other.iri.length ≤ space'.iri.length := by
  have hmem := mem_abbreviations_iff.2 h
  cases hlongest : longest (abbreviations spaces iri) with
  | none =>
    rw [longest_eq_none_iff] at hlongest
    rw [hlongest] at hmem
    cases hmem
  | some best =>
    obtain ⟨space', name'⟩ := best
    refine ⟨space', .ofList name', ?_, ?_, ?_⟩
    · rw [← mem_abbreviations_iff, String.toList_ofList]
      exact mem_of_longest hlongest
    · rw [spellIri, hlongest]
    · intro other name'' hother
      exact length_le_of_longest hlongest (mem_abbreviations_iff.2 hother)

/-! ## Expanding -/

/-- What is written between brackets. -/
def bracketed? (word : String) : Option String :=
  match word.toList with
  | '<' :: rest => if rest.getLast? = some '>' then some (.ofList rest.dropLast) else none
  | _ => none

/-- The IRI that a word stands for: what is between its brackets, or what the name before its last
colon was last declared as, followed by the local name. -/
def expand? (declarations : List Namespace) (word : String) : Option String :=
  match bracketed? word with
  | some iri => some iri
  | none =>
    let backwards := word.toList.reverse
    match backwards.dropWhile (· ≠ ':') with
    | [] => none
    | _ :: front => (lastOf? declarations (.ofList front.reverse)).map fun space =>
      space.iri ++ .ofList (backwards.takeWhile (· ≠ ':')).reverse

theorem bracketed?_bracketed (iri : String) : bracketed? ("<" ++ iri ++ ">") = some iri := by
  have hword : ("<" ++ iri ++ ">").toList = '<' :: (iri.toList ++ ['>']) := by
    simp [String.toList_append]
  rw [bracketed?, hword]
  simp

theorem getLast?_of_bracketed? {word : String} (h : bracketed? word = some iri) :
    word.toList.getLast? = some '>' := by
  unfold bracketed? at h
  split at h
  · next rest hword =>
    split at h
    · next hlast =>
      rw [hword, List.getLast?_cons, hlast]
      rfl
    · cases h
  · cases h

theorem toList_abbreviation (first name : String) :
    (first ++ ":" ++ name).toList = first.toList ++ ':' :: name.toList := by
  rw [String.toList_append, String.toList_append, List.append_assoc]
  rfl

/-- A word that ends in a plain name is not one between brackets. -/
theorem bracketed?_abbreviation (first : String) (hplain : isPlainName name.toList) :
    bracketed? (first ++ ":" ++ name) = none := by
  rw [Option.eq_none_iff_forall_ne_some]
  intro inner hinner
  have hlast := getLast?_of_bracketed? hinner
  rw [toList_abbreviation, List.getLast?_append_of_ne_nil _ (List.cons_ne_nil _ _)] at hlast
  rcases List.mem_cons.1 (List.mem_of_getLast? hlast) with h | h
  · exact absurd h (by decide)
  · exact not_mem_of_isPlainName hplain (by decide) h

/-- In a plain name there is no colon, so the last one of the word comes before it. -/
theorem expand?_abbreviation {declarations : List Namespace} {first : String}
    (hlast : lastOf? declarations first = some space) (hplain : isPlainName name.toList) :
    expand? declarations (first ++ ":" ++ name) = some (space.iri ++ name) := by
  have hname : ∀ c ∈ name.toList.reverse, decide (c ≠ ':') = true := by
    intro c hc
    rw [decide_eq_true_eq]
    rintro rfl
    exact not_mem_of_isPlainName hplain (by decide) (List.mem_reverse.1 hc)
  have hbackwards : (first ++ ":" ++ name).toList.reverse
      = name.toList.reverse ++ ':' :: first.toList.reverse := by
    rw [toList_abbreviation]
    simp
  rw [expand?, bracketed?_abbreviation first hplain, hbackwards]
  dsimp only
  rw [List.dropWhile_append_of_pos hname, List.takeWhile_append_of_pos hname]
  simp [hlast]

end

/-! ## Any history of declarations -/

/-- Whatever is declared and written, and however often, on an output that does not fail: each name
that was declared has one declaration in force, its last. An IRI is written between brackets just if no
namespace in force leaves a plain name, and else it is abbreviated by one as long as any that does. A
reader who goes by the last declarations expands it to the same IRI. -/
theorem spellIri_afterAll (device : Device) (layout : Layout) (calls : List Call)
    (hkept : ∀ r ∈ replies calls (Writer.start device layout),
      r.call.isRejected = false → r.answer = .ok ()) (iri : String) :
    let declared := calls.filterMap Call.declaration?
    let spaces := (afterAll calls (Writer.start device layout)).spaces
    (∀ name, spaces.filter (·.name = name) = (lastOf? declared name).toList)
      ∧ (spellIri spaces iri = "<" ++ iri ++ ">"
        ↔ ∀ space name, ¬Abbreviates spaces iri space name)
      ∧ ((∃ space name, Abbreviates spaces iri space name) →
        ∃ space name, Abbreviates spaces iri space name
          ∧ spellIri spaces iri = space.name ++ ":" ++ name
          ∧ ∀ other name', Abbreviates spaces iri other name' →
            other.iri.length ≤ space.iri.length)
      ∧ expand? declared (spellIri spaces iri) = some iri := by
  intro declared spaces
  have hspaces : spaces = bindAll declared [] := spaces_afterAll hkept
  have hfilter : ∀ name, spaces.filter (·.name = name) = (lastOf? declared name).toList := by
    intro name
    rw [hspaces]
    exact filter_bindAll declared name
  have hlast : ∀ space ∈ spaces, lastOf? declared space.name = some space := by
    intro space hspace
    have hmem : space ∈ spaces.filter (·.name = space.name) :=
      List.mem_filter.2 ⟨hspace, decide_eq_true rfl⟩
    rw [hfilter] at hmem
    exact Option.mem_toList.1 hmem
  refine ⟨hfilter, ⟨?_, spellIri_of_forall⟩, ?_, ?_⟩
  · -- An abbreviation is not between brackets.
    intro hspelled space name h
    obtain ⟨space', name', ⟨-, -, hplain⟩, hword, -⟩ := exists_of_abbreviates h
    have hbracketed := bracketed?_bracketed iri
    rw [← hspelled, hword, bracketed?_abbreviation _ hplain] at hbracketed
    cases hbracketed
  · rintro ⟨space, name, h⟩
    exact exists_of_abbreviates h
  · by_cases h : ∃ space name, Abbreviates spaces iri space name
    · obtain ⟨space, name, h⟩ := h
      obtain ⟨space', name', ⟨hmem, hiri, hplain⟩, hword, -⟩ := exists_of_abbreviates h
      rw [hword, expand?_abbreviation (hlast space' hmem) hplain, ← hiri]
    · rw [spellIri_of_forall fun space name hname => h ⟨space, name, hname⟩, expand?,
        bracketed?_bracketed]

/-- A name is declared anew, a statement is rejected, and the longest namespace leaves no plain name. -/
theorem spellIri_afterAll_rebound :
    let calls : List Call := [.declare ⟨"ex", "http://old/"⟩,
      .add ⟨none, .literal (.simple "no subject"), .iri "http://e/p", .iri "http://e/o"⟩,
      .declare ⟨"p", "http://e/"⟩, .declare ⟨"ex", "http://e/a"⟩]
    let spaces := (afterAll calls (Writer.start .unlimited ⟨"\t", true⟩)).spaces
    spaces = [⟨"ex", "http://e/a"⟩, ⟨"p", "http://e/"⟩]
      ∧ spellIri spaces "http://e/a-1" = "p:a-1"
      ∧ expand? (calls.filterMap Call.declaration?) "p:a-1" = some "http://e/a-1" := by
  intro calls spaces
  obtain ⟨-, -, -, hexpand⟩ := spellIri_afterAll .unlimited ⟨"\t", true⟩ calls (by decide +kernel)
    "http://e/a-1"
  have hword : spellIri spaces "http://e/a-1" = "p:a-1" := by decide +kernel
  rw [hword] at hexpand
  exact ⟨by decide +kernel, hword, hexpand⟩

end Trig
end TidyTrig
