/-!
# Steps, answers and letters

What is used of core types throughout: what a run does after a step that has succeeded or failed,
answers that are known from their success, and letters as ranges of numbers.
-/

namespace TidyTrig

/-! ## One step after another

The failure of a step is told as one of the run.
-/

section

variable {ε ε' σ α β : Type} {step : EStateM ε σ α} {adapt : ε → ε'} {next : α → EStateM ε' σ β}
  {state state' : σ}

/-- After a success the run goes on. -/
theorem adaptExcept_bind_of_ok {a : α} (h : step state = .ok a state') :
    (step.adaptExcept adapt >>= next) state = next a state' := by
  show EStateM.bind (EStateM.adaptExcept adapt step) next state = _
  rw [EStateM.bind, EStateM.adaptExcept, h]

/-- A failure ends the run. -/
theorem adaptExcept_bind_of_error {e : ε} (h : step state = .error e state') :
    (step.adaptExcept adapt >>= next) state = .error (adapt e) state' := by
  show EStateM.bind (EStateM.adaptExcept adapt step) next state = _
  rw [EStateM.bind, EStateM.adaptExcept, h]

end

/-- An answer is known from its success. -/
theorem eq_ok_of_toOption {ε α : Type} {x : Except ε α} {a : α} (h : x.toOption = some a) :
    x = .ok a := by
  cases x with
  | error e => cases h
  | ok b => exact congrArg Except.ok (Option.some.inj h)

/-! ## Letters by their numbers

The classes of ASCII letters and digits as ranges of numbers, which is how they are compared with
the bytes of a text.
-/

variable {c : Char}

theorem isUpper_iff : c.isUpper ↔ 65 ≤ c.toNat ∧ c.toNat ≤ 90 := by
  show decide (c.val ≥ 65 ∧ c.val ≤ 90) = true ↔ _
  rw [decide_eq_true_eq, ge_iff_le, UInt32.le_iff_toNat_le, UInt32.le_iff_toNat_le]
  rfl

theorem isLower_iff : c.isLower ↔ 97 ≤ c.toNat ∧ c.toNat ≤ 122 := by
  show (decide (c.val ≥ 97) && decide (c.val ≤ 122)) = true ↔ _
  rw [Bool.and_eq_true, decide_eq_true_eq, decide_eq_true_eq, ge_iff_le, UInt32.le_iff_toNat_le,
    UInt32.le_iff_toNat_le]
  rfl

theorem isDigit_iff : c.isDigit ↔ 48 ≤ c.toNat ∧ c.toNat ≤ 57 := by
  show (decide (c.val ≥ 48) && decide (c.val ≤ 57)) = true ↔ _
  rw [Bool.and_eq_true, decide_eq_true_eq, decide_eq_true_eq, ge_iff_le, UInt32.le_iff_toNat_le,
    UInt32.le_iff_toNat_le]
  rfl

theorem isAlpha_iff :
    c.isAlpha ↔ (65 ≤ c.toNat ∧ c.toNat ≤ 90) ∨ (97 ≤ c.toNat ∧ c.toNat ≤ 122) := by
  show (c.isUpper || c.isLower) = true ↔ _
  rw [Bool.or_eq_true, isUpper_iff, isLower_iff]

theorem isAlphanum_iff :
    c.isAlphanum ↔ ((65 ≤ c.toNat ∧ c.toNat ≤ 90) ∨ (97 ≤ c.toNat ∧ c.toNat ≤ 122))
      ∨ (48 ≤ c.toNat ∧ c.toNat ≤ 57) := by
  show (c.isAlpha || c.isDigit) = true ↔ _
  rw [Bool.or_eq_true, isAlpha_iff, isDigit_iff]

/-- Capitals alone have a lower case of their own. -/
theorem toLower_of_not_isUpper (h : ¬ c.isUpper) : c.toLower = c := by
  refine dif_neg ?_
  rintro ⟨hle, hge⟩
  exact h (isUpper_iff.2 ⟨UInt32.le_iff_toNat_le.1 hle, UInt32.le_iff_toNat_le.1 hge⟩)

end TidyTrig
