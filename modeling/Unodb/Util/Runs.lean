import Mathlib.Data.List.Infix

/-!
# Runs of a step relation

A system takes one atomic step after the other, whichever of its parties takes the next one.  A run
lists the events of its steps, so that what holds at an instant of it is said about a prefix.
-/

/-- A run from one state to another, with the events on the way. -/
inductive Run {S : Type*} {E : Type*} (Step : S → E → S → Prop) : S → List E → S → Prop where
  | nil (s : S) : Run Step s [] s
  | cons {s s' s'' : S} {e : E} {es : List E} :
      Step s e s' → Run Step s' es s'' → Run Step s (e :: es) s''

namespace Run

variable {S : Type*} {E : Type*} {Step : S → E → S → Prop} {s s' s'' : S} {e : E} {es es' : List E}

theorem append (h : Run Step s es s') (h' : Run Step s' es' s'') : Run Step s (es ++ es') s'' := by
  induction h with
  | nil => exact h'
  | cons hstep _ ih => exact .cons hstep (ih h')

theorem exists_append (h : Run Step s (es ++ es') s'') :
    ∃ s', Run Step s es s' ∧ Run Step s' es' s'' := by
  induction es generalizing s with
  | nil => exact ⟨s, .nil s, h⟩
  | cons e es ih =>
    cases h with
    | cons hstep hrest =>
      obtain ⟨s', hs', hs''⟩ := ih hrest
      exact ⟨s', .cons hstep hs', hs''⟩

theorem mono {Step' : S → E → S → Prop} (h : Run Step s es s')
    (himp : ∀ {s e s'}, Step s e s' → Step' s e s') : Run Step' s es s' := by
  induction h with
  | nil s => exact .nil s
  | cons hstep _ ih => exact .cons (himp hstep) ih

/-- What every step keeps holds along the whole run. -/
theorem invariant {I : S → Prop} (hstep : ∀ {s e s'}, I s → Step s e s' → I s')
    (h : Run Step s es s') (hs : I s) : I s' := by
  induction h with
  | nil => exact hs
  | cons he _ ih => exact ih (hstep hs he)

/-- An invariant may speak about the events so far. -/
theorem invariant_with {I : List E → S → Prop}
    (hstep : ∀ {es s e s'}, I es s → Step s e s' → I (es ++ [e]) s')
    (h : Run Step s es' s') (hs : I es s) : I (es ++ es') s' := by
  induction h generalizing es with
  | nil => rwa [List.append_nil]
  | cons he _ ih =>
    rw [List.append_cons]
    exact ih (hstep hs he)

/-- From one state the events lead to one state, if every event does. -/
theorem unique (hstep : ∀ {s e s' s''}, Step s e s' → Step s e s'' → s' = s'')
    (h : Run Step s es s') (h' : Run Step s es s'') : s' = s'' := by
  induction h generalizing s'' with
  | nil =>
    cases h'
    rfl
  | cons he _ ih =>
    cases h' with
    | cons he' hrest => exact ih (hstep he he' ▸ hrest)

end Run
