import TidyTrig.Editor
import TidyTrig.Proofs.Basic
import TidyTrig.Proofs.Text.Utf8

/-!
# What becomes of a document

`Fate` says what formatting makes of some content: it is left as it is if it is no text, if it is
malformed and if it is canonical, and is replaced by its canonical form otherwise. That is what
becomes of any document with this content (`Fate.exists_of_format`).
-/

namespace TidyTrig

open Utf8

/-- What becomes of some content: the outcome of formatting it, and what is there afterwards. -/
inductive Fate (labels : Nat → String) (s : FormatSettings) (content : Bytes) :
    FormatOutcome → Bytes → Prop where
  | undecodable (hdecode : decode? content = none) : Fate labels s content .malformed content
  | malformed {text : String} (htext : content = encode text)
      (hcanonical : canonicalText? labels s text = .ok none) : Fate labels s content .malformed content
  | canonical {text : String} (htext : content = encode text)
      (hcanonical : canonicalText? labels s text = .ok (some text)) :
      Fate labels s content (.formatted false) content
  | rewritten {text canonical : String} (htext : content = encode text)
      (hcanonical : canonicalText? labels s text = .ok (some canonical)) (hne : canonical ≠ text) :
      Fate labels s content (.formatted true) (encode canonical)

section

variable {labels : Nat → String} {s : FormatSettings} {content after : Bytes}
  {outcome : FormatOutcome}

/-- Content is rewritten just if other content is there afterwards. -/
theorem Fate.after_ne_iff (h : Fate labels s content outcome after) :
    after ≠ content ↔ outcome = .formatted true := by
  cases h with
  | undecodable | malformed | canonical => simp
  | rewritten htext hcanonical hne =>
    refine iff_of_true ?_ rfl
    rw [htext]
    exact fun heq => hne (encode_injective heq)

theorem Fate.eq_malformed (h : Fate labels s content outcome after)
    (hdecode : decode? content = none) : outcome = .malformed := by
  cases h with
  | undecodable | malformed => rfl
  | canonical htext | rewritten htext =>
    rw [htext, decode?_encode] at hdecode
    cases hdecode

/-- Text is put into canonical form and compared with it. -/
theorem reformat?_encode (labels : Nat → String) (s : FormatSettings) (text : String) :
    reformat? labels s (encode text) = (canonicalText? labels s text).map
      (·.map fun canonical => (canonical, decide (canonical ≠ text))) := by
  rw [reformat?, decode?_encode]

theorem Fate.reformat?_eq (h : Fate labels s content outcome after) :
    outcome = .malformed ∧ reformat? labels s content = .ok none
      ∨ ∃ canonical isChanged, outcome = .formatted isChanged ∧ after = encode canonical
        ∧ reformat? labels s content = .ok (some (canonical, isChanged)) := by
  cases h with
  | undecodable hdecode =>
    rw [reformat?, hdecode]
    exact .inl ⟨rfl, rfl⟩
  | malformed htext hcanonical =>
    rw [htext, reformat?_encode, hcanonical]
    exact .inl ⟨rfl, rfl⟩
  | @canonical text htext hcanonical =>
    rw [htext, reformat?_encode, hcanonical]
    exact .inr ⟨text, false, rfl, rfl, by simp [Except.map]⟩
  | @rewritten text canonical htext hcanonical hne =>
    rw [htext, reformat?_encode, hcanonical]
    exact .inr ⟨canonical, true, rfl, rfl, by simp [Except.map, hne]⟩

/-- Formatting a document comes to the fate of its content, and writes it only if it changes. -/
theorem Fate.exists_of_format (h : Fate labels s content outcome after) {σ : Type}
    {doc : Document σ} {state opened : σ} (hread : doc.read state = .ok content opened)
    (hwrite : ∀ text, ∃ written, doc.write text opened = .ok () written) :
    ∃ left, format labels s doc state = .ok outcome left
      ∧ (outcome ≠ .formatted true → left = opened)
      ∧ (outcome = .formatted true → ∃ canonical, after = encode canonical
        ∧ doc.write canonical opened = .ok () left) := by
  rw [format, adaptExcept_bind_of_ok hread]
  rcases h.reformat?_eq with ⟨rfl, hanswer⟩ | ⟨canonical, isChanged, rfl, hafter, hanswer⟩
  · rw [hanswer]
    exact ⟨opened, rfl, fun _ => rfl, by simp⟩
  · rw [hanswer]
    cases isChanged with
    | false => exact ⟨opened, rfl, fun _ => rfl, by simp⟩
    | true =>
      obtain ⟨written, hwritten⟩ := hwrite canonical
      exact ⟨written, adaptExcept_bind_of_ok hwritten, fun hne => absurd rfl hne,
        fun _ => ⟨canonical, hafter, hwritten⟩⟩

end

end TidyTrig
