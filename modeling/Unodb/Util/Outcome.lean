import Mathlib.Logic.Basic

/-!
# What a computation ensures of its result

Rules of partial correctness for computations that may fail: `Ensures` says nothing about a failure,
and `FailsOnly` nothing about a result.  `CarriesOver` compares two computations, where the first one
has a result.
-/

/-- Every result of the computation satisfies `P`. -/
def Ensures {ε α : Type} (x : Except ε α) (P : α → Prop) : Prop := ∀ a, x = .ok a → P a

namespace Ensures

variable {ε α β : Type} {x y : Except ε α} {f : α → Except ε β} {P : β → Prop} {Q : α → Prop}

theorem ok {b : β} (h : P b) : Ensures (.ok b : Except ε β) P := by
  rintro _ ⟨⟩
  exact h

theorem pure {b : β} (h : P b) : Ensures (Pure.pure b : Except ε β) P := ok h

theorem error {e : ε} : Ensures (.error e : Except ε β) P := by
  rintro _ ⟨⟩

theorem bind (h : Ensures x Q) (hf : ∀ a, Q a → Ensures (f a) P) : Ensures (x >>= f) P := by
  intro b hb
  cases x with
  | error => cases hb
  | ok a => exact hf a (h a rfl) b hb

/-- The bound value does not matter. -/
theorem bind_any (hf : ∀ a, Ensures (f a) P) : Ensures (x >>= f) P := by
  intro b hb
  cases x with
  | error => cases hb
  | ok a => exact hf a b hb

theorem ite {c : Prop} [Decidable c] (hx : c → Ensures x Q) (hy : ¬ c → Ensures y Q) :
    Ensures (if c then x else y) Q := by
  by_cases hc : c
  · rw [if_pos hc]
    exact hx hc
  · rw [if_neg hc]
    exact hy hc

theorem mono {P' : α → Prop} (h : Ensures x P') (himp : ∀ a, P' a → Q a) : Ensures x Q :=
  fun a ha => himp a (h a ha)

end Ensures

/-- Every failure of the computation satisfies `F`. -/
def FailsOnly {ε α : Type} (F : ε → Prop) (x : Except ε α) : Prop := ∀ e, x = .error e → F e

namespace FailsOnly

variable {ε α β : Type} {F : ε → Prop} {x y : Except ε α} {f : α → Except ε β}

theorem ok {a : α} : FailsOnly F (.ok a : Except ε α) := by
  rintro _ ⟨⟩

theorem pure {a : α} : FailsOnly F (Pure.pure a : Except ε α) := ok

theorem error {e : ε} (h : F e) : FailsOnly F (.error e : Except ε α) := by
  rintro _ ⟨⟩
  exact h

theorem throw {e : ε} (h : F e) : FailsOnly F (MonadExcept.throw e : Except ε α) := error h

theorem bind (hx : FailsOnly F x) (hf : ∀ a, FailsOnly F (f a)) : FailsOnly F (x >>= f) := by
  intro e he
  cases x with
  | error e' =>
    have heq : e' = e := Except.error.inj he
    exact hx e (heq ▸ rfl)
  | ok a => exact hf a e he

theorem ite {c : Prop} [Decidable c] (hx : FailsOnly F x) (hy : FailsOnly F y) :
    FailsOnly F (if c then x else y) := by
  by_cases hc : c
  · rw [if_pos hc]
    exact hx
  · rw [if_neg hc]
    exact hy

theorem dite {c : Prop} [Decidable c] {x : c → Except ε α} {y : ¬ c → Except ε α}
    (hx : ∀ h, FailsOnly F (x h)) (hy : ∀ h, FailsOnly F (y h)) :
    FailsOnly F (if h : c then x h else y h) := by
  by_cases hc : c
  · rw [dif_pos hc]
    exact hx hc
  · rw [dif_neg hc]
    exact hy hc

end FailsOnly

/-- Where the first computation has a result, the second one has one that is related to it. -/
def CarriesOver {ε α β : Type} (R : α → β → Prop) (x : Except ε α) (y : Except ε β) : Prop :=
  ∀ a, x = .ok a → ∃ b, y = .ok b ∧ R a b

namespace CarriesOver

variable {ε α β γ δ : Type} {R : α → β → Prop} {R' : γ → δ → Prop} {x x' : Except ε α}
  {y y' : Except ε β}

theorem ok {a : α} {b : β} (h : R a b) :
    CarriesOver R (.ok a : Except ε α) (.ok b : Except ε β) := by
  rintro _ ⟨⟩
  exact ⟨b, rfl, h⟩

theorem error {e : ε} : CarriesOver R (.error e : Except ε α) y := by
  rintro _ ⟨⟩

theorem bind {f : α → Except ε γ} {g : β → Except ε δ} (h : CarriesOver R x y)
    (hk : ∀ a b, R a b → CarriesOver R' (f a) (g b)) : CarriesOver R' (x >>= f) (y >>= g) := by
  intro c hc
  cases x with
  | error => cases hc
  | ok a =>
    obtain ⟨b, rfl, hab⟩ := h a rfl
    exact hk a b hab c hc

/-- Both go on from the same computation. -/
theorem same {f : α → Except ε γ} {g : α → Except ε δ}
    (hk : ∀ a, CarriesOver R' (f a) (g a)) : CarriesOver R' (x >>= f) (x >>= g) := by
  intro c hc
  cases x with
  | error => cases hc
  | ok a => exact hk a c hc

theorem ite {c : Prop} [Decidable c] (h : CarriesOver R x y) (h' : CarriesOver R x' y') :
    CarriesOver R (if c then x else x') (if c then y else y') := by
  by_cases hc : c
  · rw [if_pos hc, if_pos hc]
    exact h
  · rw [if_neg hc, if_neg hc]
    exact h'

end CarriesOver

/-- A result of a bind comes from a result of what it binds. -/
theorem ok_of_bind {ε α β : Type} {x : Except ε α} {f : α → Except ε β} {b : β}
    (h : (x >>= f) = .ok b) : ∃ a, x = .ok a ∧ f a = .ok b := by
  cases x with
  | error => cases h
  | ok a => exact ⟨a, rfl, h⟩
