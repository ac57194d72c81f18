import Mathlib.Algebra.Order.Monoid.NatCast
import Mathlib.Order.Monotone.Basic
import Mathlib.Tactic.Ring
import Mathlib.Tactic.Linarith

/-!
# Binary floating-point patterns

The bit patterns of an IEEE binary interchange format, what they mean, and an order-preserving
integer key for them.  A pattern is a number: the sign bit, the exponent field and the fraction
field from high to low.
-/

namespace Ieee

/-- The widths of the exponent and fraction fields. -/
structure Format where
  expBits : Nat
  fracBits : Nat
  exp_pos : 0 < expBits
  frac_pos : 0 < fracBits

variable {f : Format} {x y m m' : Nat}

namespace Format

def width (f : Format) : Nat := f.expBits + f.fracBits + 1

/-- The number of patterns without a sign bit. -/
def half (f : Format) : Nat := 2 ^ (f.expBits + f.fracBits)

/-- The fields of an infinity without its sign. -/
def infinity (f : Format) : Nat := (2 ^ f.expBits - 1) * 2 ^ f.fracBits

end Format

/-! ## 1. Meaning -/

def signBit (f : Format) (x : Nat) : Bool := decide (f.half ≤ x)

/-- The pattern without its sign. -/
def magnitude (f : Format) (x : Nat) : Nat := x % f.half

def isNaN (f : Format) (x : Nat) : Bool := decide (f.infinity < magnitude f x)

def isInf (f : Format) (x : Nat) : Bool := decide (magnitude f x = f.infinity)

/-- The value of a finite number without its sign, in units of the smallest positive number. -/
def scaled (f : Format) (m : Nat) : Nat :=
  let exponent := m / 2 ^ f.fracBits
  let fraction := m % 2 ^ f.fracBits
  if exponent = 0 then fraction else (2 ^ f.fracBits + fraction) * 2 ^ (exponent - 1)

/-- The value of a finite number, in units of the smallest positive number. -/
def value (f : Format) (x : Nat) : Int :=
  if signBit f x then -(scaled f (magnitude f x) : Int) else scaled f (magnitude f x)

/-- The place of a pattern among negative infinity, the finite numbers, positive infinity and the
    patterns that are not numbers. -/
def rank (f : Format) (x : Nat) : Nat :=
  if isNaN f x then 3 else if isInf f x then (if signBit f x then 0 else 2) else 1

/-- The order of patterns: by rank, then by value, with the negative zero below the positive. -/
def Before (f : Format) (x y : Nat) : Prop :=
  rank f x < rank f y ∨ (rank f x = 1 ∧ rank f y = 1 ∧
    (value f x < value f y ∨ (value f x = value f y ∧ signBit f x = true ∧ signBit f y = false)))

/-- Patterns are told apart, save those that are not numbers. -/
def Same (f : Format) (x y : Nat) : Prop := x = y ∨ (isNaN f x ∧ isNaN f y)

/-! ## 2. Magnitudes -/

theorem half_eq (f : Format) : f.half = f.infinity + 2 ^ f.fracBits := by
  have hpos : 0 < 2 ^ f.expBits := Nat.two_pow_pos _
  rw [Format.half, Format.infinity, Nat.pow_add, ← Nat.succ_mul, Nat.succ_eq_add_one,
    Nat.sub_add_cancel hpos]

theorem two_le_fraction (f : Format) : 2 ≤ 2 ^ f.fracBits := by
  calc 2 = 2 ^ 1 := rfl
    _ ≤ 2 ^ f.fracBits := Nat.pow_le_pow_right (by decide) f.frac_pos

theorem infinity_pos (f : Format) : 0 < f.infinity := by
  have h : 2 ≤ 2 ^ f.expBits := by
    calc 2 = 2 ^ 1 := rfl
      _ ≤ 2 ^ f.expBits := Nat.pow_le_pow_right (by decide) f.exp_pos
  exact Nat.mul_pos (by omega) (Nat.two_pow_pos _)

theorem scaled_strictMono (f : Format) : StrictMono (scaled f) := by
  refine strictMono_nat_of_lt_succ fun m => ?_
  have hQ : 0 < 2 ^ f.fracBits := Nat.two_pow_pos _
  unfold scaled
  generalize 2 ^ f.fracBits = Q at hQ ⊢
  simp only
  by_cases hcarry : m % Q + 1 < Q
  · -- The fraction goes up by one.
    have hdiv : (m + 1) / Q = m / Q := by
      have h1 := Nat.div_add_mod m Q
      rw [Nat.div_eq_iff hQ, Nat.mul_comm (m / Q) Q]
      omega
    have hmod : (m + 1) % Q = m % Q + 1 := by
      have h1 := Nat.div_add_mod m Q
      have h2 := Nat.div_add_mod (m + 1) Q
      rw [hdiv] at h2
      omega
    rw [hdiv, hmod]
    split
    · omega
    · exact Nat.mul_lt_mul_of_pos_right (by omega) (Nat.two_pow_pos _)
  · -- The fraction is full, so the exponent goes up by one.
    have hlt := Nat.mod_lt m hQ
    have hfull : m % Q + 1 = Q := by omega
    have hsum : m + 1 = Q * (m / Q + 1) := by
      have h1 := Nat.div_add_mod m Q
      rw [Nat.mul_add, Nat.mul_one]
      omega
    have hdiv : (m + 1) / Q = m / Q + 1 := by
      rw [hsum, Nat.mul_div_cancel_left _ hQ]
    have hmod : (m + 1) % Q = 0 := by
      rw [hsum, Nat.mul_mod_right]
    rw [hdiv, hmod, if_neg (Nat.succ_ne_zero _), Nat.add_zero, Nat.add_sub_cancel]
    split
    · rename_i hzero
      rw [hzero, pow_zero, Nat.mul_one]
      omega
    · rename_i hpos
      obtain ⟨e, he⟩ := Nat.exists_eq_succ_of_ne_zero hpos
      rw [Nat.succ_eq_add_one] at he
      rw [he, Nat.add_sub_cancel, pow_succ, Nat.mul_comm (2 ^ e) 2, ← Nat.mul_assoc]
      exact Nat.mul_lt_mul_of_pos_right (by omega) (Nat.two_pow_pos _)

/-! ## 3. The sort key -/

/-- An integer for each pattern, ordered as the patterns are. -/
def sortKey (f : Format) (x : Nat) : Nat :=
  if isNaN f x then 2 * f.half - 1
  else if isInf f x then (if signBit f x then 0 else 2 * f.half - 2)
  else if signBit f x then 2 * f.half - 1 - x
  else x + f.half

/-- A pattern is its sign and its magnitude. -/
theorem pattern_eq (hx : x < 2 * f.half) :
    x = magnitude f x + if signBit f x then f.half else 0 := by
  rw [magnitude, signBit]
  by_cases h : f.half ≤ x
  · rw [Nat.mod_eq_sub_mod h, Nat.mod_eq_of_lt (by omega), decide_eq_true h, if_pos rfl]
    omega
  · rw [Nat.mod_eq_of_lt (by omega), decide_eq_false h]
    rfl

/-- The four kinds of patterns, with their keys. -/
theorem sortKey_cases (hx : x < 2 * f.half) :
    (isNaN f x ∧ rank f x = 3 ∧ sortKey f x = 2 * f.half - 1) ∨
    (¬ isNaN f x ∧ signBit f x = false ∧ rank f x = 2 ∧ magnitude f x = f.infinity ∧
      sortKey f x = 2 * f.half - 2) ∨
    (¬ isNaN f x ∧ signBit f x = true ∧ rank f x = 0 ∧ magnitude f x = f.infinity ∧
      sortKey f x = 0) ∨
    (¬ isNaN f x ∧ rank f x = 1 ∧ magnitude f x < f.infinity ∧
      sortKey f x = if signBit f x then f.half - 1 - magnitude f x else f.half + magnitude f x) := by
  have hpat := pattern_eq hx
  by_cases hnan : isNaN f x
  · exact .inl ⟨hnan, by rw [rank, if_pos hnan], by rw [sortKey, if_pos hnan]⟩
  · have hle : magnitude f x ≤ f.infinity := by
      rw [isNaN, decide_eq_true_eq] at hnan
      omega
    by_cases hinf : isInf f x
    · have hmag : magnitude f x = f.infinity := by rwa [isInf, decide_eq_true_eq] at hinf
      cases hs : signBit f x with
      | false =>
        exact .inr (.inl ⟨hnan, rfl, by simp [rank, hnan, hinf, hs], hmag,
          by simp [sortKey, hnan, hinf, hs]⟩)
      | true =>
        exact .inr (.inr (.inl ⟨hnan, rfl, by simp [rank, hnan, hinf, hs], hmag,
          by simp [sortKey, hnan, hinf, hs]⟩))
    · have hlt : magnitude f x < f.infinity := by
        rw [isInf, decide_eq_true_eq] at hinf
        omega
      refine .inr (.inr (.inr ⟨hnan, by simp [rank, hnan, hinf], hlt, ?_⟩))
      rw [sortKey, if_neg hnan, if_neg hinf]
      cases hs : signBit f x with
      | false =>
        rw [hs] at hpat
        simp only [Bool.false_eq_true, if_false] at hpat ⊢
        omega
      | true =>
        rw [hs] at hpat
        simp only [if_true] at hpat ⊢
        omega

/-- Keys of finite numbers are ordered as the numbers. -/
theorem finite_lt_iff (hx : magnitude f x < f.infinity) (hy : magnitude f y < f.infinity) :
    ((if signBit f x then f.half - 1 - magnitude f x else f.half + magnitude f x) <
      if signBit f y then f.half - 1 - magnitude f y else f.half + magnitude f y) ↔
    (value f x < value f y ∨ (value f x = value f y ∧ signBit f x = true ∧ signBit f y = false)) := by
  have hhalf := half_eq f
  have hQ := two_le_fraction f
  have hmono : scaled f (magnitude f x) < scaled f (magnitude f y) ↔ magnitude f x < magnitude f y :=
    (scaled_strictMono f).lt_iff_lt
  have hmono' : scaled f (magnitude f y) < scaled f (magnitude f x) ↔ magnitude f y < magnitude f x :=
    (scaled_strictMono f).lt_iff_lt
  unfold value
  cases hsx : signBit f x <;> cases hsy : signBit f y <;>
    simp only [Bool.false_eq_true, if_false, if_true, and_false, and_true, or_false,
      Bool.true_eq_false] <;>
    omega

/-- The key tells the order of patterns. -/
theorem sortKey_lt_iff (hx : x < 2 * f.half) (hy : y < 2 * f.half) :
    sortKey f x < sortKey f y ↔ Before f x y := by
  have hhalf := half_eq f
  have hQ := two_le_fraction f
  have hinf := infinity_pos f
  rw [Before]
  rcases sortKey_cases hx with ⟨-, hrx, hkx⟩ | ⟨-, -, hrx, -, hkx⟩ | ⟨-, -, hrx, -, hkx⟩ |
      ⟨-, hrx, hmx, hkx⟩ <;>
    rcases sortKey_cases hy with ⟨-, hry, hky⟩ | ⟨-, -, hry, -, hky⟩ | ⟨-, -, hry, -, hky⟩ |
      ⟨-, hry, hmy, hky⟩ <;>
    rw [hrx, hry, hkx, hky]
  case inr.inr.inr.inr.inr.inr =>
    rw [finite_lt_iff hmx hmy]
    simp
  all_goals (try split) <;> simp <;> omega

/-- The pattern of a key. -/
def ofSortKey (f : Format) (nan key : Nat) : Nat :=
  if key = 2 * f.half - 1 then nan
  else if key = 2 * f.half - 2 then f.infinity
  else if key = 0 then f.half + f.infinity
  else if f.half ≤ key then key - f.half
  else 2 * f.half - 1 - key

theorem sortKey_lt (f : Format) (hx : x < 2 * f.half) : sortKey f x < 2 * f.half := by
  have hhalf := half_eq f
  have hQ := two_le_fraction f
  rcases sortKey_cases hx with ⟨-, -, hk⟩ | ⟨-, -, -, -, hk⟩ | ⟨-, -, -, -, hk⟩ | ⟨-, -, hm, hk⟩ <;>
    rw [hk]
  case inr.inr.inr => split <;> omega
  all_goals omega

theorem sortKey_of_not_isNaN (hx : x < 2 * f.half) (hnan : ¬ isNaN f x) :
    sortKey f x ≠ 2 * f.half - 1 := by
  have hhalf := half_eq f
  have hQ := two_le_fraction f
  rcases sortKey_cases hx with ⟨h, -⟩ | ⟨-, -, -, -, hk⟩ | ⟨-, -, -, -, hk⟩ | ⟨-, -, hm, hk⟩
  · exact absurd h hnan
  · omega
  · omega
  · rw [hk]
    split <;> omega

/-- The key of a finite number lies strictly between those of the infinities. -/
theorem sortKey_of_finite (hx : x < 2 * f.half)
    (hnan : ¬ isNaN f x) (hinf : ¬ isInf f x) : 0 < sortKey f x ∧ sortKey f x < 2 * f.half - 2 := by
  have hhalf := half_eq f
  have hQ := two_le_fraction f
  have hne : magnitude f x ≠ f.infinity := by
    rwa [isInf, decide_eq_true_eq] at hinf
  rcases sortKey_cases hx with ⟨h, -⟩ | ⟨-, -, -, hm, -⟩ | ⟨-, -, -, hm, -⟩ | ⟨-, -, hm, hk⟩
  · exact absurd h hnan
  · exact absurd hm hne
  · exact absurd hm hne
  · rw [hk]
    split <;> omega

/-- A number is found again from its key. -/
theorem ofSortKey_sortKey (nan : Nat) (hx : x < 2 * f.half) (hnan : ¬ isNaN f x) :
    ofSortKey f nan (sortKey f x) = x := by
  have hhalf := half_eq f
  have hQ := two_le_fraction f
  have hpat := pattern_eq hx
  have hne := sortKey_of_not_isNaN hx hnan
  unfold ofSortKey
  rw [if_neg hne]
  rcases sortKey_cases hx with ⟨h, -⟩ | ⟨-, hs, -, hm, hk⟩ | ⟨-, hs, -, hm, hk⟩ | ⟨-, -, hm, hk⟩
  · exact absurd h hnan
  · rw [hs, hm] at hpat
    rw [if_pos hk]
    simpa using hpat.symm
  · rw [hs, hm] at hpat
    rw [hk, if_neg (by omega), if_pos rfl]
    simp only [if_true] at hpat
    omega
  · cases hs : signBit f x with
    | false =>
      rw [hs] at hk hpat
      simp only [Bool.false_eq_true, if_false] at hk hpat
      rw [if_neg (by omega), if_neg (by omega), if_pos (by omega)]
      omega
    | true =>
      rw [hs] at hk hpat
      simp only [if_true] at hk hpat
      rw [if_neg (by omega), if_neg (by omega), if_neg (by omega)]
      omega

/-- The key tells patterns apart. -/
theorem sortKey_eq_iff (hx : x < 2 * f.half) (hy : y < 2 * f.half) :
    sortKey f x = sortKey f y ↔ Same f x y := by
  have hkey : ∀ {z}, isNaN f z → sortKey f z = 2 * f.half - 1 := fun hz => by rw [sortKey, if_pos hz]
  rw [Same]
  constructor
  · intro heq
    by_cases hnx : isNaN f x <;> by_cases hny : isNaN f y
    · exact .inr ⟨hnx, hny⟩
    · rw [hkey hnx] at heq
      exact absurd heq.symm (sortKey_of_not_isNaN hy hny)
    · rw [hkey hny] at heq
      exact absurd heq (sortKey_of_not_isNaN hx hnx)
    · rw [← ofSortKey_sortKey 0 hx hnx, heq, ofSortKey_sortKey 0 hy hny]
      exact .inl rfl
  · rintro (rfl | ⟨hnx, hny⟩)
    · rfl
    · rw [hkey hnx, hkey hny]

end Ieee
