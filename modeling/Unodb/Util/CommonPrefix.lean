import Mathlib.Data.List.TakeDrop

/-!
# Common prefixes and padded windows

The longest common prefix of two lists, and the first entries of a list that is thought of as
continued with one value.
-/

namespace List

variable {α : Type*} [DecidableEq α] {as bs : List α} {n : Nat}

/-- The longest list that both lists start with. -/
def commonPrefix : List α → List α → List α
  | a :: as, b :: bs => if a = b then a :: commonPrefix as bs else []
  | _, _ => []

theorem commonPrefix_comm (as bs : List α) : commonPrefix as bs = commonPrefix bs as := by
  induction as generalizing bs with
  | nil => cases bs <;> rfl
  | cons a as ih =>
    cases bs with
    | nil => rfl
    | cons b bs =>
      rw [commonPrefix, commonPrefix, ih bs]
      by_cases hab : a = b
      · rw [if_pos hab, if_pos hab.symm, hab]
      · rw [if_neg hab, if_neg (Ne.symm hab)]

theorem commonPrefix_take (as bs : List α) (n : Nat) :
    (commonPrefix as bs).take n = commonPrefix (as.take n) (bs.take n) := by
  induction n generalizing as bs with
  | zero => simp [commonPrefix]
  | succ n ih =>
    cases as with
    | nil => simp [commonPrefix]
    | cons a as =>
      cases bs with
      | nil => simp [commonPrefix]
      | cons b bs =>
        simp only [commonPrefix, take_succ_cons]
        by_cases hab : a = b
        · rw [if_pos hab, if_pos hab, take_succ_cons, ih]
        · rw [if_neg hab, if_neg hab, take_nil]

/-- Two lists that agree on some entries, and then have no entry in common or end. -/
theorem commonPrefix_eq_take (h : as.take n = bs.take n) (hstop : ∀ a ∈ as[n]?, a ∉ bs[n]?) :
    commonPrefix as bs = as.take n := by
  induction n generalizing as bs with
  | zero =>
    cases as with
    | nil => rfl
    | cons a as =>
      cases bs with
      | nil => rfl
      | cons b bs =>
        have hab : a ≠ b := fun hab => hstop a (by simp) (by simp [hab])
        rw [commonPrefix, if_neg hab, take_zero]
  | succ n ih =>
    cases as with
    | nil => rfl
    | cons a as =>
      cases bs with
      | nil => simp at h
      | cons b bs =>
        rw [take_succ_cons, take_succ_cons, cons.injEq] at h
        rw [commonPrefix, if_pos h.1, take_succ_cons, ih h.2 (by simpa using hstop)]

/-- The first `n` entries, with `a` for those that the list does not have. -/
def window (a : α) (n : Nat) (as : List α) : List α := (as ++ replicate n a).take n

omit [DecidableEq α] in
theorem length_window (a : α) (n : Nat) (as : List α) : (window a n as).length = n := by
  simp [window]

omit [DecidableEq α] in
theorem window_getElem? (a : α) (as : List α) {i : Nat} (hi : i < n) :
    (window a n as)[i]? = some (as.getD i a) := by
  rw [window, getElem?_take, if_pos hi, getElem?_append, getD_eq_getElem?_getD]
  by_cases hlt : i < as.length
  · rw [if_pos hlt, getElem?_eq_getElem hlt, Option.getD_some]
  · rw [if_neg hlt, getElem?_replicate, if_pos (by omega), getElem?_eq_none (by omega),
      Option.getD_none]

end List
