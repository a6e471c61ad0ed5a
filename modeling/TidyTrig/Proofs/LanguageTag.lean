import TidyTrig.LanguageTag
import TidyTrig.Proofs.Basic
import TidyTrig.Text.Basic

/-!
# Language tags as a document holds them

A document spells a language tag with letters and hyphens. `isTag` says which tags are read back as
they are: those that are well formed and in lower case. `hasBlocks_of_isTag` is all that a scanner
has to know of them: no block between hyphens is empty.
-/

namespace TidyTrig

namespace LanguageTag

/-- Whether a tag is one that reading a document can yield. -/
def isTag (tag : String) : Bool :=
  tag.toList.all (fun c => c.isLower || c = '-') && (check tag).isOk

/-- Whether these characters end a row of blocks of letters between hyphens, none of them
empty. -/
def hasBlocks (inEmptyBlock : Bool) : List Char → Bool
  | [] => !inEmptyBlock
  | c :: cs =>
    if c = '-' then !inEmptyBlock && hasBlocks true cs else c.isAlpha && hasBlocks false cs

theorem ne_nil_of_readSubtags {stage stage' : Stage} {parts : List (List Char)}
    (h : readSubtags stage parts = .ok stage') : [] ∉ parts := by
  induction parts generalizing stage with
  | nil => exact List.not_mem_nil
  | cons part parts ih =>
    rw [readSubtags] at h
    split at h
    · next hread =>
      rw [List.mem_cons, not_or]
      refine ⟨?_, ih h⟩
      rintro rfl
      cases hread
    · cases h

/-- The parts between hyphens are the blocks. -/
theorem hasBlocks_of_splitAt {cs : List Char} (hcs : cs.all fun c => c.isLower || c = '-') :
    ([] ∉ splitAt '-' cs → hasBlocks true cs) ∧ ([] ∉ (splitAt '-' cs).tail → hasBlocks false cs) := by
  induction cs with
  | nil =>
    constructor
    · intro h
      exact absurd (List.mem_singleton_self _) h
    · intro _
      rfl
  | cons c cs ih =>
    rw [List.all_cons, Bool.and_eq_true] at hcs
    obtain ⟨ihTrue, ihFalse⟩ := ih hcs.2
    rw [splitAt, hasBlocks, hasBlocks]
    by_cases hc : c = '-'
    · rw [if_pos hc, if_pos hc, if_pos hc, List.tail_cons]
      constructor
      · intro h
        exact absurd List.mem_cons_self h
      · intro h
        rw [ihTrue h]
        rfl
    · have halpha : c.isAlpha := by
        have hlower : c.isLower := by simpa [hc] using hcs.1
        exact isAlpha_iff.2 (.inr (isLower_iff.1 hlower))
      rw [if_neg hc, if_neg hc, if_neg hc, halpha, Bool.true_and]
      generalize splitAt '-' cs = parts at ihFalse
      cases parts with
      | nil => exact ⟨fun _ => ihFalse List.not_mem_nil, fun _ => ihFalse List.not_mem_nil⟩
      | cons part parts =>
        rw [List.tail_cons] at ihFalse
        constructor
        · intro h
          exact ihFalse fun hmem => h (List.mem_cons_of_mem _ hmem)
        · intro h
          exact ihFalse h

theorem hasBlocks_registered : registered.all fun tag => hasBlocks true tag.toList := by
  decide +kernel

theorem toLower_of_isLower {c : Char} (h : c.isLower || c = '-') : c.toLower = c := by
  apply toLower_of_not_isUpper
  rw [Bool.or_eq_true, decide_eq_true_eq, isLower_iff] at h
  rcases h with h | rfl
  · rw [isUpper_iff]
    omega
  · decide

theorem map_toLower_of_isTag {tag : String} (h : isTag tag) :
    tag.toList.map Char.toLower = tag.toList := by
  rw [isTag, Bool.and_eq_true] at h
  have hid : tag.toList.map Char.toLower = tag.toList.map id := by
    apply List.map_congr_left
    intro c hc
    exact toLower_of_isLower (List.all_eq_true.1 h.1 c hc)
  rw [hid, List.map_id]

/-- Lower case is where reading brings a tag. -/
theorem lowercase_of_isTag {tag : String} (h : isTag tag) : lowercase tag = tag := by
  rw [lowercase, map_toLower_of_isTag h, String.ofList_toList]

theorem check_of_isTag {tag : String} (h : isTag tag) : check tag = .ok () := by
  rw [isTag, Bool.and_eq_true] at h
  cases hcheck : check tag with
  | ok => rfl
  | error fault =>
    rw [hcheck] at h
    cases h.2

theorem hasBlocks_of_isTag {tag : String} (h : isTag tag) : hasBlocks true tag.toList := by
  have hlower := map_toLower_of_isTag h
  have hcheck := check_of_isTag h
  rw [isTag, Bool.and_eq_true] at h
  have hchars := h.1
  unfold check at hcheck
  dsimp only at hcheck
  rw [hlower, String.ofList_toList] at hcheck
  by_cases hregistered : tag ∈ registered
  · exact List.all_eq_true.1 hasBlocks_registered tag hregistered
  · rw [if_neg hregistered] at hcheck
    split at hcheck
    · cases hcheck
    · next rest _ hrest =>
      rw [hrest] at hchars ⊢
      rw [List.all_cons, List.all_cons, Bool.and_eq_true, Bool.and_eq_true] at hchars
      split at hcheck
      · next hread =>
        have hparts := ne_nil_of_readSubtags hread
        show hasBlocks true rest = true
        exact (hasBlocks_of_splitAt hchars.2.2).1 hparts
      · cases hcheck
    · split at hcheck
      · next hread => exact (hasBlocks_of_splitAt hchars).1 (ne_nil_of_readSubtags hread)
      · cases hcheck

end LanguageTag
end TidyTrig
