import Mathlib.Data.Fintype.Card
import Mathlib.Data.List.Basic
import Mathlib.Order.Defs.LinearOrder

/-!
# Arrays, shifting loops and finite maps with a size

An access to an array of a fixed length has a result within the array only.  The loops that open a
gap in the middle of an array and that close one are built from such accesses.  Below them is the
number of keys at which a map from a finite type is defined.
-/

namespace Arrays

variable {α β : Type}

/-- `xs[i] = x;` -/
def store (xs : List α) (i : Nat) (x : α) : Option (List α) :=
  if i < xs.length then some (xs.set i x) else none

/-- The entries from `lo` up to but not including `hi`, as a loop reads them. -/
def slice (xs : List α) (lo hi : Nat) : Option (List α) :=
  if hi ≤ xs.length then some ((xs.take hi).drop lo) else none

/-- The next entry of an array of length `capacity` that is filled from its front. -/
def push (capacity : Nat) (xs : List α) (x : α) : Option (List α) :=
  if xs.length < capacity then some (xs ++ [x]) else none

/-- An array of length `capacity` with its first entries written and `pad` in the others. -/
def fill (capacity : Nat) (xs : List α) (pad : α) : Option (List α) :=
  if xs.length ≤ capacity then some (xs ++ List.replicate (capacity - xs.length) pad) else none

/-- `for (i = n; i > pos; --i) xs[i] = xs[i - 1];` -/
def shiftUp (xs : List α) (pos : Nat) : Nat → Option (List α)
  | 0 => some xs
  | i + 1 =>
    if pos < i + 1 then do
      let xs ← store xs (i + 1) (← xs[i]?)
      shiftUp xs pos i
    else some xs

/-- `for (; n > 0; ++i, --n) xs[i] = xs[i + 1];` -/
def shiftDown (xs : List α) (i : Nat) : Nat → Option (List α)
  | 0 => some xs
  | n + 1 => do
    let xs ← store xs i (← xs[i + 1]?)
    shiftDown xs (i + 1) n

theorem store_eq {xs : List α} {i : Nat} (h : i < xs.length) (x : α) :
    store xs i x = some (xs.set i x) := if_pos h

theorem slice_eq {xs : List α} {hi : Nat} (h : hi ≤ xs.length) (lo : Nat) :
    slice xs lo hi = some ((xs.take hi).drop lo) := if_pos h

theorem slice_zero {xs : List α} {hi : Nat} (h : hi ≤ xs.length) :
    slice xs 0 hi = some (xs.take hi) := by
  rw [slice_eq h, List.drop_zero]

theorem push_eq {capacity : Nat} {xs : List α} (h : xs.length < capacity) (x : α) :
    push capacity xs x = some (xs ++ [x]) := if_pos h

theorem fill_eq {capacity : Nat} {xs : List α} (h : xs.length ≤ capacity) (pad : α) :
    fill capacity xs pad = some (xs ++ List.replicate (capacity - xs.length) pad) := if_pos h

/-- The loop that opens a gap stays within the array and moves the entries above `pos`. -/
theorem shiftUp_spec (pos : Nat) {i : Nat} {xs : List α} (hi : i < xs.length) :
    ∃ ys, shiftUp xs pos i = some ys ∧ ys.length = xs.length ∧
      ∀ j, ys[j]? = if pos < j ∧ j ≤ i then xs[j - 1]? else xs[j]? := by
  induction i generalizing xs with
  | zero => exact ⟨xs, by rw [shiftUp], rfl, fun j => by rw [if_neg (by omega)]⟩
  | succ i ih =>
    by_cases hpos : pos < i + 1
    · have hget : xs[i]? = some xs[i] := List.getElem?_eq_getElem (by omega)
      obtain ⟨ys, hys, hlen, hval⟩ := ih
        (show i < (xs.set (i + 1) xs[i]).length by rw [List.length_set]; omega)
      refine ⟨ys, ?_, by rw [hlen, List.length_set], fun j => ?_⟩
      · rw [shiftUp, if_pos hpos, hget, Option.bind_eq_bind, Option.bind_some, store_eq hi]
        exact hys
      · rw [hval, List.getElem?_set, List.getElem?_set]
        by_cases hj : j = i + 1
        · subst hj
          rw [if_neg (by omega), if_pos rfl, if_pos hi, if_pos (by omega), Nat.add_sub_cancel, hget]
        · by_cases hin : pos < j ∧ j ≤ i
          · rw [if_pos hin, if_neg (by omega), if_pos (by omega)]
          · rw [if_neg hin, if_neg (by omega), if_neg (by omega)]
    · exact ⟨xs, by rw [shiftUp, if_neg hpos], rfl, fun j => by rw [if_neg (by omega)]⟩

/-- The loop that closes a gap stays within the array and moves `n` entries down. -/
theorem shiftDown_spec {n i : Nat} {xs : List α} (hi : i + n < xs.length) :
    ∃ ys, shiftDown xs i n = some ys ∧ ys.length = xs.length ∧
      ∀ j, ys[j]? = if i ≤ j ∧ j < i + n then xs[j + 1]? else xs[j]? := by
  induction n generalizing xs i with
  | zero => exact ⟨xs, by rw [shiftDown], rfl, fun j => by rw [if_neg (by omega)]⟩
  | succ n ih =>
    have hget : xs[i + 1]? = some xs[i + 1] := List.getElem?_eq_getElem (by omega)
    obtain ⟨ys, hys, hlen, hval⟩ := ih
      (show i + 1 + n < (xs.set i xs[i + 1]).length by rw [List.length_set]; omega)
    refine ⟨ys, ?_, by rw [hlen, List.length_set], fun j => ?_⟩
    · rw [shiftDown, hget, Option.bind_eq_bind, Option.bind_some, store_eq (by omega)]
      exact hys
    · rw [hval, List.getElem?_set, List.getElem?_set]
      by_cases hj : j = i
      · subst hj
        rw [if_neg (by omega), if_pos rfl, if_pos (by omega), if_pos (by omega), hget]
      · by_cases hin : i + 1 ≤ j ∧ j < i + 1 + n
        · rw [if_pos hin, if_neg (by omega), if_pos (by omega)]
        · rw [if_neg hin, if_neg (by omega), if_neg (by omega)]

/-- In a sorted list the elements at or below a bound are a front part of it. -/
theorem le_iff_lt_countP [LinearOrder α] {l : List α} (hl : l.Pairwise (· < ·)) (b : α) (i : Nat)
    (hi : i < l.length) : l[i] ≤ b ↔ i < l.countP (· ≤ b) := by
  induction l generalizing i with
  | nil => simp at hi
  | cons x l ih =>
    rw [List.pairwise_cons] at hl
    by_cases hx : x ≤ b
    · rw [List.countP_cons_of_pos (by simpa using hx)]
      cases i with
      | zero => simp [hx]
      | succ j =>
        rw [List.getElem_cons_succ, ih hl.2 j (by simpa using hi)]
        omega
    · have hzero : l.countP (· ≤ b) = 0 := by
        rw [List.countP_eq_zero]
        intro y hy hyb
        rw [decide_eq_true_eq] at hyb
        exact hx (le_trans (le_of_lt (hl.1 y hy)) hyb)
      rw [List.countP_cons_of_neg (by simpa using hx), hzero]
      cases i with
      | zero => simpa using lt_of_not_ge hx
      | succ j =>
        simp only [List.getElem_cons_succ, Nat.not_lt_zero, iff_false]
        intro hyb
        exact hx (le_trans (le_of_lt (hl.1 _ (List.getElem_mem _))) hyb)

/-! ## 1. The size of a map -/

section Degree

variable [Fintype α]

/-- The number of keys a map binds. -/
def degree (f : α → Option β) : Nat := (Finset.univ.filter fun a => (f a).isSome).card

theorem degree_update_some [DecidableEq α] {f : α → Option β} {a : α} (ha : f a = none) (b : β) :
    degree (Function.update f a (some b)) = degree f + 1 := by
  have hset : (Finset.univ.filter fun x => (Function.update f a (some b) x).isSome) =
      insert a (Finset.univ.filter fun x => (f x).isSome) := by
    ext x
    by_cases hx : x = a
    · subst hx; simp
    · simp [hx]
  rw [degree, hset, Finset.card_insert_of_notMem (by simp [ha]), degree]

theorem degree_update_of_isSome [DecidableEq α] {f : α → Option β} {a : α} (ha : (f a).isSome)
    (b : β) :
    degree (Function.update f a (some b)) = degree f := by
  have hset : (Finset.univ.filter fun x => (Function.update f a (some b) x).isSome) =
      Finset.univ.filter fun x => (f x).isSome := by
    ext x
    by_cases hx : x = a
    · subst hx; simp [ha]
    · simp [Function.update_of_ne hx]
  rw [degree, hset, degree]

theorem degree_update_none [DecidableEq α] {f : α → Option β} {a : α} (ha : (f a).isSome) :
    degree (Function.update f a none) + 1 = degree f := by
  have hset : (Finset.univ.filter fun x => (Function.update f a none x).isSome) =
      (Finset.univ.filter fun x => (f x).isSome).erase a := by
    ext x
    by_cases hx : x = a
    · subst hx; simp
    · simp [hx]
  rw [degree, hset]
  exact Finset.card_erase_add_one (by simp [ha])

theorem degree_le_card (f : α → Option β) : degree f ≤ Fintype.card α :=
  Finset.card_le_univ _

theorem degree_pos_iff {f : α → Option β} : 0 < degree f ↔ ∃ a, (f a).isSome := by
  rw [degree, Finset.card_pos, Finset.filter_nonempty_iff]
  simp

/-- Two bound keys of a map that binds more than one. -/
theorem exists_ne_of_one_lt_degree {f : α → Option β} (h : 1 < degree f) (a : α) :
    ∃ a', a' ≠ a ∧ (f a').isSome := by
  obtain ⟨a', ha', hne⟩ := Finset.exists_mem_ne h a
  exact ⟨a', hne, by simpa using ha'⟩

end Degree

end Arrays
