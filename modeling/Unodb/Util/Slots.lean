import Mathlib.Data.Multiset.AddSub
import Mathlib.Data.Multiset.Filter
import Mathlib.Algebra.Order.Group.Multiset

/-!
# What the occupied slots hold

Slots that hold a value each, or nothing.  One value stands for holding no resource; `held` collects
all others, as often as they are held.
-/

namespace Slots

variable {α : Type*} [DecidableEq α] (null : α)

/-- What one slot holds. -/
def single : Option α → Multiset α
  | some a => if a = null then 0 else {a}
  | none => 0

/-- What all slots hold. -/
def held : List (Option α) → Multiset α
  | [] => 0
  | v :: slots => single null v + held slots

@[simp] theorem single_none : single null none = 0 := rfl

@[simp] theorem single_null : single null (some null) = 0 := if_pos rfl

theorem single_of_ne {null a : α} (h : a ≠ null) : single null (some a) = {a} := if_neg h

@[simp] theorem held_nil : held null [] = 0 := rfl

@[simp] theorem held_cons (v : Option α) (slots : List (Option α)) :
    held null (v :: slots) = single null v + held null slots := rfl

@[simp] theorem held_append (slots slots' : List (Option α)) :
    held null (slots ++ slots') = held null slots + held null slots' := by
  induction slots with
  | nil => rw [List.nil_append, held_nil, zero_add]
  | cons v slots ih => rw [List.cons_append, held_cons, held_cons, ih, add_assoc]

variable {null} {slots : List (Option α)} {i : Nat} {v w : Option α}

theorem single_le_held (h : slots[i]? = some v) : single null v ≤ held null slots := by
  induction slots generalizing i with
  | nil => simp at h
  | cons u slots ih =>
    cases i with
    | zero =>
      obtain rfl : u = v := by simpa using h
      exact Multiset.le_add_right _ _
    | succ i => exact (ih (by simpa using h)).trans (Multiset.le_add_left _ _)

/-- A slot gets another value. -/
theorem held_set (h : slots[i]? = some v) :
    held null (slots.set i w) = single null w + (held null slots - single null v) := by
  induction slots generalizing i with
  | nil => simp at h
  | cons u slots ih =>
    cases i with
    | zero =>
      obtain rfl : u = v := by simpa using h
      rw [List.set_cons_zero, held_cons, held_cons, add_tsub_cancel_left]
    | succ i =>
      have hi : slots[i]? = some v := by simpa using h
      rw [List.set_cons_succ, held_cons, held_cons, ih hi, Multiset.add_sub_assoc (single_le_held hi)]
      exact add_left_comm _ _ _

theorem held_eq_zero_iff :
    held null slots = 0 ↔ ∀ (i : Nat) (a : α), slots[i]? = some (some a) → a = null := by
  constructor
  · intro h i a hi
    have hle : single null (some a) ≤ held null slots := single_le_held hi
    rw [h] at hle
    by_contra hne
    rw [single_of_ne hne] at hle
    simp at hle
  · intro h
    induction slots with
    | nil => rfl
    | cons v slots ih =>
      rw [held_cons, ih fun i a hi => h (i + 1) a (by simpa using hi), add_zero]
      cases v with
      | none => rfl
      | some a => rw [h 0 a (by simp), single_null]

end Slots
