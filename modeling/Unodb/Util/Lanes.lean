import Mathlib.Data.BitVec
import Mathlib.Data.List.Range

/-!
# Registers made of lanes

A register is a word that is read as lanes of one width, lane 0 lowest.  A comparison of registers
gives a word of flags: runs of equal bits, one run for each lane.  The first flag that is set is
found by counting the trailing zeros of the word.
-/

namespace Lanes

variable {n w : Nat}

/-- The word with the given bits. -/
def ofBits (f : Nat → Bool) : (n : Nat) → BitVec n
  | 0 => 0#0
  | n + 1 => BitVec.cons (f n) (ofBits f n)

/-- A lane of a register. -/
def lane (w : Nat) (x : BitVec n) (i : Nat) : BitVec w := x.extractLsb' (w * i) w

/-- The register with the given lanes. -/
def ofLanes (n : Nat) {w : Nat} (f : Nat → BitVec w) : BitVec n :=
  ofBits (fun j => (f (j / w)).getLsbD (j % w)) n

/-- The word whose first `c` runs of `w` bits are set as `p` says.  The other bits are zero. -/
def flags (n w c : Nat) (p : Nat → Bool) : BitVec n :=
  ofBits (fun j => decide (j < c * w) && p (j / w)) n

theorem getLsbD_ofBits (f : Nat → Bool) (n j : Nat) :
    (ofBits f n).getLsbD j = (decide (j < n) && f j) := by
  induction n with
  | zero => simp
  | succ n ih =>
    rw [ofBits, BitVec.getLsbD_cons, ih]
    by_cases hj : j = n
    · simp [hj]
    · have hlt : j < n + 1 ↔ j < n := by omega
      simp [hj, hlt]

theorem getLsbD_lane (x : BitVec n) (i j : Nat) :
    (lane w x i).getLsbD j = (decide (j < w) && x.getLsbD (w * i + j)) := by
  rw [lane, BitVec.getLsbD_extractLsb']

theorem getLsbD_ofLanes (f : Nat → BitVec w) (j : Nat) :
    (ofLanes n f).getLsbD j = (decide (j < n) && (f (j / w)).getLsbD (j % w)) := by
  rw [ofLanes, getLsbD_ofBits]

theorem getLsbD_flags (c : Nat) (p : Nat → Bool) (j : Nat) :
    (flags n w c p).getLsbD j = (decide (j < n) && decide (j < c * w) && p (j / w)) := by
  rw [flags, getLsbD_ofBits, Bool.and_assoc]

theorem lane_ofLanes (f : Nat → BitVec w) {i : Nat} (hi : w * (i + 1) ≤ n) :
    lane w (ofLanes n f) i = f i := by
  apply BitVec.eq_of_getLsbD_eq
  intro j hj
  have hlt : w * i + j < n := by
    rw [Nat.mul_succ] at hi
    omega
  rw [getLsbD_lane, getLsbD_ofLanes, Nat.mul_add_mod, Nat.mod_eq_of_lt hj,
    Nat.mul_add_div (by omega), Nat.div_eq_of_lt hj, Nat.add_zero]
  simp [hj, hlt]

theorem toNat_lane (x : BitVec n) (i : Nat) :
    (lane w x i).toNat = x.toNat / 2 ^ (w * i) % 2 ^ w := by
  rw [lane, BitVec.extractLsb'_toNat, Nat.shiftRight_eq_div_pow]

theorem lane_xor (x y : BitVec n) (i : Nat) :
    lane w (x ^^^ y) i = lane w x i ^^^ lane w y i := by
  apply BitVec.eq_of_getLsbD_eq
  intro j hj
  rw [BitVec.getLsbD_xor, getLsbD_lane, getLsbD_lane, getLsbD_lane, BitVec.getLsbD_xor]
  simp [hj]

theorem getLsbD_eq_decide (x : BitVec n) (j : Nat) :
    x.getLsbD j = decide (x.toNat / 2 ^ j % 2 = 1) := by
  rw [BitVec.getLsbD, Nat.testBit_eq_decide_div_mod_eq]

/-- Two registers are equal lane by lane. -/
theorem ofLanes_congr {f g : Nat → BitVec w} (h : ∀ i, w * i < n → f i = g i) :
    ofLanes n f = ofLanes n g := by
  apply BitVec.eq_of_getLsbD_eq
  intro j hj
  rw [getLsbD_ofLanes, getLsbD_ofLanes, h (j / w)]
  exact Nat.lt_of_le_of_lt (Nat.mul_div_le j w) hj

/-- A register of all-ones and all-zeros lanes is a word of flags. -/
theorem ofLanes_eq_flags {p : Nat → Bool} {c : Nat} (hw : 0 < w) (hc : c * w = n) :
    ofLanes n (fun i => if p i then BitVec.allOnes w else 0) = flags n w c p := by
  apply BitVec.eq_of_getLsbD_eq
  intro j hj
  rw [getLsbD_ofLanes, getLsbD_flags]
  have hmod : j % w < w := Nat.mod_lt j hw
  by_cases hp : p (j / w) = true
  · simp [hj, hp, hmod, hc]
  · simp [hp]

/-! ## 1. Flags -/

theorem getLsbD_shiftLeft_one_sub_one {k : Nat} (hk : k < n) (j : Nat) :
    ((1#n <<< k) - 1#n).getLsbD j = decide (j < k) := by
  have hpow : 2 ^ k < 2 ^ n := Nat.pow_lt_pow_right (by omega) hk
  have heq : (1#n <<< k) - 1#n = BitVec.ofNat n (2 ^ k - 1) := by
    apply BitVec.eq_of_toNat_eq
    have hone : 1 % 2 ^ n = 1 := Nat.mod_eq_of_lt (Nat.one_lt_two_pow (by omega))
    have hpos : 0 < 2 ^ k := Nat.two_pow_pos k
    rw [BitVec.toNat_sub, BitVec.toNat_shiftLeft, BitVec.toNat_ofNat, BitVec.toNat_ofNat, hone,
      Nat.shiftLeft_eq, Nat.one_mul, Nat.mod_eq_of_lt hpow,
      Nat.mod_eq_of_lt (by omega : 2 ^ k - 1 < 2 ^ n)]
    rw [show 2 ^ n - 1 + 2 ^ k = (2 ^ k - 1) + 2 ^ n by omega, Nat.add_mod_right,
      Nat.mod_eq_of_lt (by omega)]
  rw [heq, BitVec.getLsbD_ofNat, Nat.testBit_two_pow_sub_one]
  by_cases hj : j < k
  · simp [hj, Nat.lt_trans hj hk]
  · simp [hj]

/-- A mask of whole runs takes the other flags away. -/
theorem flags_and_mask {c k m : Nat} {p : Nat → Bool} (hk : k = m * w) (hn : k < n) :
    flags n w c p &&& ((1#n <<< k) - 1#n) = flags n w (min c m) p := by
  subst hk
  apply BitVec.eq_of_getLsbD_eq
  intro j hj
  rw [BitVec.getLsbD_and, getLsbD_shiftLeft_one_sub_one hn, getLsbD_flags, getLsbD_flags]
  have hmin : j < min c m * w ↔ j < c * w ∧ j < m * w := by
    rw [← Nat.mul_min_mul_right, Nat.lt_min]
  simp only [hmin, hj, Bool.decide_and]
  cases decide (j < c * w) <;> cases decide (j < m * w) <;> simp

theorem flags_eq_zero_iff {c : Nat} {p : Nat → Bool} (hw : 0 < w) (hc : c * w ≤ n) :
    flags n w c p = 0 ↔ ∀ i < c, p i = false := by
  constructor
  · intro h i hi
    have hle : (i + 1) * w ≤ c * w := Nat.mul_le_mul_right w hi
    have hlt : i * w < c * w := by
      rw [Nat.succ_mul] at hle
      omega
    have hbit : (flags n w c p).getLsbD (i * w) = false := by
      rw [h]
      exact BitVec.getLsbD_zero
    rw [getLsbD_flags, Nat.mul_div_cancel i hw] at hbit
    simpa [hlt, Nat.lt_of_lt_of_le hlt hc] using hbit
  · intro h
    apply BitVec.eq_of_getLsbD_eq
    intro j hj
    rw [getLsbD_flags]
    by_cases hlt : j < c * w
    · rw [h (j / w) (Nat.div_lt_of_lt_mul (by rwa [Nat.mul_comm])), Bool.and_false]
      simp
    · simp [hlt]

/-- `std::countr_zero` finds the lowest bit that is set. -/
theorem ctz_toNat_eq {x : BitVec n} {k : Nat} (hk : x.getLsbD k = true)
    (hbelow : ∀ j < k, x.getLsbD j = false) : x.ctz.toNat = k := by
  have hne : x ≠ 0#n := by
    rintro rfl
    simp at hk
  rcases Nat.lt_trichotomy x.ctz.toNat k with hlt | heq | hgt
  · have hset := BitVec.getLsbD_true_ctz_of_ne_zero hne
    rw [hbelow _ hlt] at hset
    cases hset
  · exact heq
  · rw [BitVec.getLsbD_false_of_lt_ctz hgt] at hk
    cases hk

theorem ctz_flags {c i : Nat} {p : Nat → Bool} (hw : 0 < w) (hc : c * w ≤ n) (hi : i < c)
    (hp : p i = true) (hbelow : ∀ k < i, p k = false) : (flags n w c p).ctz.toNat = i * w := by
  have hle : (i + 1) * w ≤ c * w := Nat.mul_le_mul_right w hi
  have hlt : i * w < c * w := by
    rw [Nat.succ_mul] at hle
    omega
  apply ctz_toNat_eq
  · simp [getLsbD_flags, hlt, Nat.lt_of_lt_of_le hlt hc, Nat.mul_div_cancel i hw, hp]
  · intro j hj
    rw [getLsbD_flags, hbelow (j / w) (Nat.div_lt_of_lt_mul (by rwa [Nat.mul_comm])),
      Bool.and_false]

/-- Either no flag is set, or one is the first, and the trailing zeros count the runs before it. -/
theorem flags_cases (n : Nat) {c : Nat} (p : Nat → Bool) (hw : 0 < w) (hc : c * w ≤ n) :
    (flags n w c p = 0 ∧ ∀ i < c, p i = false) ∨
      ∃ i < c, p i = true ∧ (∀ k < i, p k = false) ∧ flags n w c p ≠ 0 ∧
        (flags n w c p).ctz.toNat = i * w := by
  by_cases h : ∃ i, i < c ∧ p i = true
  · obtain ⟨hi, hp⟩ := Nat.find_spec h
    have hbelow : ∀ k < Nat.find h, p k = false := fun k hk => by
      have hmin := Nat.find_min h hk
      simpa [Nat.lt_trans hk hi] using hmin
    refine Or.inr ⟨Nat.find h, hi, hp, hbelow, fun hzero => ?_, ctz_flags hw hc hi hp hbelow⟩
    rw [(flags_eq_zero_iff hw hc).mp hzero _ hi] at hp
    cases hp
  · have hnone : ∀ i < c, p i = false := fun i hi => by simpa [hi] using not_exists.mp h i
    exact Or.inl ⟨(flags_eq_zero_iff hw hc).mpr hnone, hnone⟩

/-- Sign extension keeps the lowest bit that is set. -/
theorem ctz_signExtend {m : Nat} {x : BitVec n} (hm : n ≤ m) (hx : x ≠ 0) :
    (x.signExtend m).ctz.toNat = x.ctz.toNat := by
  have hlt : x.ctz.toNat < n := by
    by_contra hge
    have hset := BitVec.getLsbD_true_ctz_of_ne_zero hx
    rw [BitVec.getLsbD_of_ge _ _ (by omega)] at hset
    cases hset
  apply ctz_toNat_eq
  · have hset := BitVec.getLsbD_true_ctz_of_ne_zero hx
    rw [BitVec.getLsbD_signExtend, if_pos hlt, hset, Bool.and_true]
    exact decide_eq_true (by omega)
  · intro j hj
    rw [BitVec.getLsbD_signExtend, if_pos (by omega), BitVec.getLsbD_false_of_lt_ctz hj,
      Bool.and_false]

theorem signExtend_ne_zero {m : Nat} {x : BitVec n} (hm : n ≤ m) (hx : x ≠ 0) :
    x.signExtend m ≠ 0 := by
  have hset := BitVec.getLsbD_true_ctz_of_ne_zero hx
  intro h0
  have hbit : (x.signExtend m).getLsbD x.ctz.toNat = false := by
    rw [h0]
    exact BitVec.getLsbD_zero
  have hlt : x.ctz.toNat < n := by
    by_contra hge
    rw [BitVec.getLsbD_of_ge _ _ (by omega)] at hset
    cases hset
  have hlt' : x.ctz.toNat < m := by omega
  rw [BitVec.getLsbD_signExtend, if_pos hlt, hset, Bool.and_true, decide_eq_true hlt'] at hbit
  cases hbit

end Lanes
