import Mathlib.Algebra.BigOperators.Group.Finset.Piecewise
import Mathlib.Algebra.Order.BigOperators.Group.Finset
import Mathlib.Data.Fintype.Basic

/-!
# A counter that is bumped by a load and a store

Parties bump a shared counter, each by loading it and storing the next value.  As long as no party
stores while another one holds a loaded value, every bump counts; the first time one does, a bump is
lost for good.
-/

open Finset

/-- Where a party is in a bump: it has one to make, or has loaded the counter for it. -/
inductive Phase where
  | idle
  | due
  | loaded (value : Nat)
deriving DecidableEq

/-- What a step of a party does to the counter and to its phase; the flag tells whether the step makes
    a bump due. -/
inductive Bump (value : Nat) : Phase → Bool → Nat → Phase → Prop where
  | keep (p : Phase) : Bump value p false value p
  | begin : Bump value .idle true value .due
  | load : Bump value .due false value (.loaded value)
  | store (v : Nat) : Bump value (.loaded v) false (v + 1) .idle

namespace Phase

def isDue : Phase → Nat
  | .due => 1
  | _ => 0

def isLoaded : Phase → Nat
  | .loaded _ => 1
  | _ => 0

end Phase

/-- The counter and the phase of every party. -/
structure Counter (ι : Type) where
  value : Nat
  phase : ι → Phase

namespace Counter

variable {ι : Type} [DecidableEq ι]

/-- The counter after a step of a party. -/
def update (c : Counter ι) (i : ι) (value : Nat) (p : Phase) : Counter ι :=
  ⟨value, Function.update c.phase i p⟩

theorem update_phase (c : Counter ι) (i j : ι) (value : Nat) (p : Phase) :
    (c.update i value p).phase j = if j = i then p else c.phase j :=
  Function.update_apply c.phase i p j

/-- If a step of the party to phase `p` is a store, no other party has loaded the counter. -/
def StoresAlone (c : Counter ι) (i : ι) (p : Phase) : Prop :=
  ∀ v, c.phase i = .loaded v → p = .idle → ∀ j ≠ i, ∀ w, c.phase j ≠ .loaded w

variable [Fintype ι]

/-- Of the `n` bumps that became due, those under way are missing in the counter and no other. -/
structure Exact (c : Counter ι) (n : Nat) : Prop where
  loaded : ∀ {i v}, c.phase i = .loaded v → v = c.value
  total : c.value + (∑ i, (c.phase i).isDue + ∑ i, (c.phase i).isLoaded) = n

/-- The counter will never reach `n`: `m` bounds what the loaded values lead to. -/
def Short (c : Counter ι) (n : Nat) : Prop :=
  ∃ m, c.value ≤ m ∧ (∀ i v, c.phase i = .loaded v → v + 1 ≤ m) ∧ m + ∑ i, (c.phase i).isDue < n

variable {c : Counter ι} {i : ι} {n : Nat} {b : Bool} {value : Nat} {p : Phase}

/-- A sum over the phases after a step. -/
theorem sum_update (w : Phase → Nat) (f : ι → Phase) (i : ι) (p : Phase) :
    ∑ j, w (Function.update f i p j) + w (f i) = ∑ j, w (f j) + w p := by
  have hcomp : (fun j => w (Function.update f i p j)) =
      Function.update (fun j => w (f j)) i (w p) :=
    funext fun j => Function.apply_update (fun _ => w) f i p j
  rw [hcomp, Finset.sum_update_of_mem (mem_univ i), sum_eq_add_sum_sdiff_singleton_of_mem (mem_univ i)
    fun j => w (f j)]
  omega

/-- A step that does not store beside another party that has loaded. -/
theorem Exact.step (h : c.Exact n) (hbump : Bump c.value (c.phase i) b value p)
    (halone : c.StoresAlone i p) : (c.update i value p).Exact (n + b.toNat) := by
  have hdue := sum_update Phase.isDue c.phase i p
  have hloaded := sum_update Phase.isLoaded c.phase i p
  have htotal := h.total
  generalize hq : c.phase i = q at hbump
  rw [hq] at hdue hloaded
  refine ⟨?_, ?_⟩
  · intro j v hj
    rw [update_phase] at hj
    by_cases hji : j = i
    · rw [if_pos hji] at hj
      subst hj
      cases hbump with
      | keep => exact h.loaded hq
      | load => rfl
    · rw [if_neg hji] at hj
      cases hbump with
      | keep | begin | load => exact h.loaded hj
      | store w => exact absurd hj (halone w hq rfl j hji v)
  · show value + (∑ j, (Function.update c.phase i p j).isDue +
      ∑ j, (Function.update c.phase i p j).isLoaded) = n + b.toNat
    cases hbump with
    | keep =>
      rw [Bool.toNat_false]
      omega
    | begin | load =>
      simp only [Phase.isDue, Phase.isLoaded, Bool.toNat_true, Bool.toNat_false] at *
      omega
    | store v =>
      obtain rfl := h.loaded hq
      simp only [Phase.isDue, Phase.isLoaded, Bool.toNat_false] at *
      omega

/-- A party stores while another one has loaded. -/
theorem Exact.short (h : c.Exact n) (hbump : Bump c.value (c.phase i) b value p)
    (halone : ¬ c.StoresAlone i p) : (c.update i value p).Short (n + b.toNat) := by
  unfold StoresAlone at halone
  push Not at halone
  obtain ⟨v, hv, rfl, j, hji, w, hw⟩ := halone
  have hdue := sum_update Phase.isDue c.phase i .idle
  have htotal := h.total
  -- The two of them are under way.
  have htwo : 2 ≤ ∑ k, (c.phase k).isLoaded := by
    have hle := add_le_sum (f := fun k => (c.phase k).isLoaded) (fun _ _ => Nat.zero_le _)
      (mem_univ i) (mem_univ j) (Ne.symm hji)
    simp only [hv, hw, Phase.isLoaded] at hle
    exact hle
  obtain rfl := h.loaded hv
  rw [hv] at hbump hdue
  cases hbump with
  | store =>
    refine ⟨c.value + 1, Nat.le_refl _, ?_, ?_⟩
    · intro k x hk
      rw [update_phase] at hk
      by_cases hki : k = i
      · rw [if_pos hki] at hk
        cases hk
      · rw [if_neg hki] at hk
        rw [h.loaded hk]
    · show c.value + 1 + ∑ k, (Function.update c.phase i .idle k).isDue < _
      simp only [Phase.isDue, Bool.toNat_false] at *
      omega

/-- What is lost is not made good. -/
theorem Short.step (h : c.Short n) (hbump : Bump c.value (c.phase i) b value p) :
    (c.update i value p).Short (n + b.toNat) := by
  obtain ⟨m, hvalue, hloaded, hlt⟩ := h
  have hdue := sum_update Phase.isDue c.phase i p
  -- The loaded values of the other parties stay.
  have hothers : ∀ {m'}, m ≤ m' → (∀ v, p = .loaded v → v + 1 ≤ m') →
      ∀ j v, (c.update i value p).phase j = .loaded v → v + 1 ≤ m' := by
    intro m' hm hp j v hj
    rw [update_phase] at hj
    by_cases hji : j = i
    · rw [if_pos hji] at hj
      exact hp v hj
    · rw [if_neg hji] at hj
      exact (hloaded j v hj).trans hm
  generalize hq : c.phase i = q at hbump hdue
  cases hbump with
  | keep =>
    refine ⟨m, hvalue, hothers le_rfl fun v hv => hloaded i v (hq.trans hv), ?_⟩
    show m + ∑ j, (Function.update c.phase i p j).isDue < _
    rw [Bool.toNat_false]
    omega
  | begin =>
    refine ⟨m, hvalue, hothers le_rfl (by simp), ?_⟩
    show m + ∑ j, (Function.update c.phase i .due j).isDue < _
    simp only [Phase.isDue, Bool.toNat_true] at *
    omega
  | load =>
    refine ⟨m + 1, hvalue.trans (Nat.le_succ m), hothers (Nat.le_succ m) ?_, ?_⟩
    · intro v hv
      cases hv
      exact Nat.succ_le_succ hvalue
    · show m + 1 + ∑ j, (Function.update c.phase i (.loaded c.value) j).isDue < _
      simp only [Phase.isDue, Bool.toNat_false] at *
      omega
  | store v =>
    refine ⟨m, hloaded i v hq, hothers le_rfl (by simp), ?_⟩
    show m + ∑ j, (Function.update c.phase i .idle j).isDue < _
    simp only [Phase.isDue, Bool.toNat_false] at *
    omega

omit [DecidableEq ι] in
theorem Exact.value_le (h : c.Exact n) (hbump : Bump c.value (c.phase i) b value p) :
    c.value ≤ value := by
  generalize hq : c.phase i = q at hbump
  cases hbump with
  | keep | begin | load => exact le_rfl
  | store v =>
    obtain rfl := h.loaded hq
    exact Nat.le_succ _

omit [DecidableEq ι] in
theorem Exact.value_eq (h : c.Exact n) (hidle : ∀ i, c.phase i = .idle) : c.value = n := by
  have htotal := h.total
  simp only [hidle, Phase.isDue, Phase.isLoaded, sum_const_zero, add_zero] at htotal
  exact htotal

omit [DecidableEq ι] in
theorem Short.value_lt (h : c.Short n) : c.value < n := by
  obtain ⟨m, hvalue, -, hlt⟩ := h
  omega

end Counter
