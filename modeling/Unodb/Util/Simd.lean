import Unodb.Util.Lanes

/-!
# Vector instructions

The instructions of SSE, AVX2 and NEON that compare lanes and narrow the result, each as what it
does to the lanes, and what they do to words of flags.
-/

open Lanes

namespace Simd

variable {n w : Nat}

/-! ## 1. Instructions -/

/-- `_mm_set1_epi8`, `vdupq_n_u8`, `vdupq_n_u32`, `vdupq_n_u64`. -/
def setAll (n : Nat) (a : BitVec w) : BitVec n := ofLanes n fun _ => a

/-- `_mm_setzero_si128`, `_mm256_setzero_si256`. -/
def setzero (n : Nat) : BitVec n := 0

/-- `_mm_cvtsi32_si128`. -/
def cvtsi32 (a : BitVec 32) : BitVec 128 := ofLanes 128 fun i => if i = 0 then a else 0

/-- `vsetq_lane_u32`. -/
def setLane (a : BitVec 32) (x : BitVec 128) (k : Nat) : BitVec 128 :=
  ofLanes 128 fun i => if i = k then a else lane 32 x i

/-- `_mm_cmpeq_epi8`, `_mm_cmpeq_epi64`, `_mm256_cmpeq_epi64`, `vceqq_u8`, `vceqq_u64`. -/
def cmpeq (w : Nat) (x y : BitVec n) : BitVec n :=
  ofLanes n fun i => if lane w x i == lane w y i then BitVec.allOnes w else 0

/-- `_mm_max_epu8`. -/
def maxU (w : Nat) (x y : BitVec n) : BitVec n :=
  ofLanes n fun i => if lane w x i ≤ lane w y i then lane w y i else lane w x i

/-- `_mm_movemask_epi8`, `_mm256_movemask_epi8`. -/
def movemaskEpi8 (x : BitVec n) : BitVec 32 := ofBits (fun j => (lane 8 x j).msb) 32

/-- The signed 16-bit integer closest to a signed 32-bit integer. -/
def saturate (x : BitVec 32) : BitVec 16 := BitVec.ofInt 16 (max (-2 ^ 15) (min (2 ^ 15 - 1) x.toInt))

/-- `_mm_packs_epi32`, and `_mm256_packs_epi32`, which treats each half by itself. -/
def packsEpi32 (x y : BitVec n) : BitVec n := ofLanes n fun i =>
  saturate (if i % 8 < 4 then lane 32 x (4 * (i / 8) + i % 8) else lane 32 y (4 * (i / 8) + (i % 8 - 4)))

/-- `_mm256_permute4x64_epi64`. -/
def permute4x64 (x : BitVec 256) (imm8 : BitVec 8) : BitVec 256 :=
  ofLanes 256 fun i => lane 64 x ((imm8 >>> (2 * i)) &&& 3).toNat

/-- `_mm256_testz_si256`. -/
def testz (x y : BitVec n) : Bool := x &&& y == 0

/-- `vshrn_n_u16`, `vshrn_n_u32`, `vshrn_n_u64`, for lanes of `2 * w` bits. -/
def shrn (w : Nat) (x : BitVec 128) (k : Nat) : BitVec 64 :=
  ofLanes 64 fun i => (lane (2 * w) x i >>> k).setWidth w

/-- `vcombine_u16`, `vcombine_u32`. -/
def combine (low high : BitVec 64) : BitVec 128 :=
  ofLanes 128 fun i => if i = 0 then low else high

/-- `vget_low_u64` and then `vget_lane_u64`. -/
def getLow (x : BitVec 128) : BitVec 64 := lane 64 x 0

/-- `std::popcount`. -/
def popcount (x : BitVec n) : Nat := (List.range n).countP fun j => x.getLsbD j

/-! ## 2. What they do to flags -/

variable {c : Nat} {p q : Nat → Bool}

theorem lane_setAll (a : BitVec w) {i : Nat} (hi : w * (i + 1) ≤ n) :
    lane w (setAll n a) i = a := lane_ofLanes _ hi

/-- The bytes of the lowest 32-bit lane. -/
theorem lane_ofLanes_zero (f : Nat → BitVec 32) {i : Nat} (hi : i < 4) :
    lane 8 (ofLanes 128 f) i = lane 8 (f 0) i := by
  apply BitVec.eq_of_getLsbD_eq
  intro j hj
  have hlt : 8 * i + j < 128 := by omega
  rw [getLsbD_lane, getLsbD_lane, getLsbD_ofLanes, show (8 * i + j) / 32 = 0 by omega,
    Nat.mod_eq_of_lt (by omega), decide_eq_true hlt, Bool.true_and]

theorem lane_cvtsi32 (a : BitVec 32) {i : Nat} (hi : i < 4) :
    lane 8 (cvtsi32 a) i = lane 8 a i := lane_ofLanes_zero _ hi

theorem lane_setLane_zero (a : BitVec 32) (x : BitVec 128) {i : Nat} (hi : i < 4) :
    lane 8 (setLane a x 0) i = lane 8 a i := lane_ofLanes_zero _ hi

theorem cmpeq_eq_flags (x y : BitVec n) (hw : 0 < w) (hc : c * w = n) :
    cmpeq w x y = flags n w c fun i => lane w x i == lane w y i := ofLanes_eq_flags hw hc

theorem movemaskEpi8_flags {k : Nat} (hw : w = 8 * k) (hc : c * w ≤ n) :
    movemaskEpi8 (flags n w c p) = flags 32 k c p := by
  subst hw
  apply BitVec.eq_of_getLsbD_eq
  intro j hj
  have hlt : 8 * j + 7 < c * (8 * k) ↔ j < c * k := by
    rw [Nat.mul_left_comm]
    omega
  have hn : j < c * k → 8 * j + 7 < n := fun h => by
    have := hlt.mpr h
    omega
  have hdiv : (8 * j + 7) / (8 * k) = j / k := by
    rw [← Nat.div_div_eq_div_mul]
    congr 1
    omega
  rw [movemaskEpi8, getLsbD_ofBits, BitVec.msb_eq_getLsbD_last, getLsbD_lane,
    getLsbD_flags, getLsbD_flags, hdiv]
  by_cases h : j < c * k
  · simp [hlt, h, hn h, hj]
  · simp [hlt, h]

theorem lane_flags (hw : 0 < w) (hc : c * w = n) {i : Nat} (hi : i < c) :
    lane w (flags n w c p) i = if p i then BitVec.allOnes w else 0 := by
  rw [← ofLanes_eq_flags hw hc, lane_ofLanes]
  calc w * (i + 1) = (i + 1) * w := Nat.mul_comm _ _
    _ ≤ c * w := Nat.mul_le_mul_right w hi
    _ = n := hc

theorem packsEpi32_flags (hc : c * 32 = n) (h4 : c % 4 = 0) :
    packsEpi32 (flags n 32 c p) (flags n 32 c q) = flags n 16 (c * 2) fun i =>
      if i % 8 < 4 then p (4 * (i / 8) + i % 8) else q (4 * (i / 8) + (i % 8 - 4)) := by
  refine (ofLanes_congr fun i hi => ?_).trans (ofLanes_eq_flags (by omega) (by omega))
  have hones : saturate (BitVec.allOnes 32) = BitVec.allOnes 16 := by decide
  have hzero : saturate 0 = 0 := by decide
  by_cases hlow : i % 8 < 4
  · rw [if_pos hlow, if_pos hlow, lane_flags (by omega) hc (by omega)]
    by_cases hp : p (4 * (i / 8) + i % 8) = true
    · rw [if_pos hp, if_pos hp, hones]
    · rw [if_neg hp, if_neg hp, hzero]
  · rw [if_neg hlow, if_neg hlow, lane_flags (by omega) hc (by omega)]
    by_cases hq : q (4 * (i / 8) + (i % 8 - 4)) = true
    · rw [if_pos hq, if_pos hq, hones]
    · rw [if_neg hq, if_neg hq, hzero]

theorem permute4x64_flags (imm8 : BitVec 8) :
    permute4x64 (flags 256 16 16 p) imm8 = flags 256 16 16 fun i =>
      p (4 * ((imm8 >>> (2 * (i / 4))) &&& 3).toNat + i % 4) := by
  apply BitVec.eq_of_getLsbD_eq
  intro j hj
  have hsel : ((imm8 >>> (2 * (j / 64))) &&& 3).toNat < 4 := by
    rw [BitVec.toNat_and]
    exact Nat.lt_succ_of_le Nat.and_le_right
  rw [permute4x64, getLsbD_ofLanes, getLsbD_lane, getLsbD_flags, getLsbD_flags,
    show j / 16 / 4 = j / 64 by omega]
  generalize ((imm8 >>> (2 * (j / 64))) &&& 3).toNat = s at hsel
  rw [show (64 * s + j % 64) / 16 = 4 * s + j / 16 % 4 by omega]
  have hmod : j % 64 < 64 := by omega
  have hlt : 64 * s + j % 64 < 256 := by omega
  simp [hj, hmod, hlt]

/-- Half of the bits of each lane are left of a flag. -/
theorem shrn_flags {k : Nat} (hk : k ≤ w) (hc : c * w = 64) :
    shrn w (flags 128 (2 * w) c p) k = flags 64 w c p := by
  apply BitVec.eq_of_getLsbD_eq
  intro j hj
  have hw : 0 < w := by
    rcases Nat.eq_zero_or_pos w with rfl | hw
    · omega
    · exact hw
  have hmod : j % w < w := Nat.mod_lt j hw
  have hdiv : (2 * w * (j / w) + (k + j % w)) / (2 * w) = j / w := by
    have hsmall : (k + j % w) / (2 * w) = 0 := Nat.div_eq_of_lt (by omega)
    rw [Nat.mul_add_div (by omega), hsmall, Nat.add_zero]
  have hlt : 2 * w * (j / w) + (k + j % w) < 128 := by
    have hdm := Nat.div_add_mod j w
    have hle : (j / w + 1) * w ≤ c * w :=
      Nat.mul_le_mul_right w ((Nat.div_lt_iff_lt_mul hw).mpr (by omega))
    rw [Nat.mul_assoc]
    rw [Nat.succ_mul, Nat.mul_comm] at hle
    omega
  have hlt' : 2 * w * (j / w) + (k + j % w) < c * (2 * w) := by
    rw [Nat.mul_left_comm, hc]
    exact hlt
  have hrun : k + j % w < 2 * w := by omega
  rw [shrn, getLsbD_ofLanes, BitVec.getLsbD_setWidth, BitVec.getLsbD_ushiftRight, getLsbD_lane,
    getLsbD_flags, getLsbD_flags, hdiv]
  simp [hj, hmod, hrun, hlt, hlt', hc]

/-- Two flags of a byte each are left of every lane, with four bits each. -/
theorem shrn_bytes_flags :
    shrn 8 (flags 128 8 16 p) 4 = flags 64 4 16 p := by
  apply BitVec.eq_of_getLsbD_eq
  intro j hj
  have hmod : j % 8 < 8 := by omega
  have hrun : 4 + j % 8 < 16 := by omega
  have hlt : 2 * 8 * (j / 8) + (4 + j % 8) < 128 := by omega
  rw [shrn, getLsbD_ofLanes, BitVec.getLsbD_setWidth, BitVec.getLsbD_ushiftRight, getLsbD_lane,
    getLsbD_flags, getLsbD_flags, show (2 * 8 * (j / 8) + (4 + j % 8)) / 8 = j / 4 by omega]
  simp [hj, hmod, hrun, hlt]

theorem getLow_flags : getLow (flags 128 w c p) = flags 64 w c p := by
  apply BitVec.eq_of_getLsbD_eq
  intro j hj
  have hlt : j < 128 := by omega
  rw [getLow, getLsbD_lane, getLsbD_flags, getLsbD_flags, Nat.mul_zero, Nat.zero_add]
  simp [hj, hlt]

theorem combine_flags (hw : 0 < w) (hc : c * w = 64) :
    combine (flags 64 w c p) (flags 64 w c q) = flags 128 w (2 * c) fun i =>
      if i < c then p i else q (i - c) := by
  apply BitVec.eq_of_getLsbD_eq
  intro j hj
  have hdiv : j / w < c ↔ j < 64 := by rw [Nat.div_lt_iff_lt_mul hw, hc]
  rw [combine, getLsbD_ofLanes, getLsbD_flags, Nat.mul_assoc, hc]
  by_cases hlow : j < 64
  · have hzero : j / 64 = 0 := by omega
    rw [if_pos hzero, if_pos (hdiv.mpr hlow), getLsbD_flags, hc, Nat.mod_eq_of_lt hlow]
    simp [hj, hlow]
  · have hone : ¬ j / 64 = 0 := by omega
    have hsub : (j - 64) / w = j / w - c := by
      rw [show 64 = w * c by rw [Nat.mul_comm, hc], Nat.sub_mul_div]
    rw [if_neg hone, if_neg (hdiv.not.mpr hlow), getLsbD_flags, hc,
      show j % 64 = j - 64 by omega, hsub]
    have hhigh : j - 64 < 64 := by omega
    simp [hj, hhigh]

/-- Runs of bits can be read as longer runs when neighbours are equal. -/
theorem flags_merge (h : ∀ i < c, p (2 * i) = p (2 * i + 1)) :
    flags n w (c * 2) p = flags n (2 * w) c fun i => p (2 * i) := by
  apply BitVec.eq_of_getLsbD_eq
  intro j hj
  rw [getLsbD_flags, getLsbD_flags, Nat.mul_assoc]
  by_cases hlt : j < c * (2 * w)
  · have hdiv : j / (2 * w) = j / w / 2 := by rw [Nat.div_div_eq_div_mul, Nat.mul_comm]
    have hi : j / (2 * w) < c := Nat.div_lt_of_lt_mul (by rwa [Nat.mul_comm])
    have heq : p (j / w) = p (2 * (j / (2 * w))) := by
      rcases Nat.mod_two_eq_zero_or_one (j / w) with hmod | hmod
      · congr 1
        omega
      · rw [h _ hi]
        congr 1
        omega
    rw [heq]
  · simp [hlt]

/-- Runs of bits can be read as two halves each. -/
theorem flags_split : flags n (2 * w) c p = flags n w (c * 2) fun i => p (i / 2) := by
  rw [flags_merge fun i _ => by rw [show (2 * i + 1) / 2 = 2 * i / 2 by omega]]
  congr 1
  funext i
  rw [Nat.mul_div_cancel_left i (by omega)]

theorem flags_congr (h : ∀ i < c, p i = q i) : flags n w c p = flags n w c q := by
  apply BitVec.eq_of_getLsbD_eq
  intro j hj
  rw [getLsbD_flags, getLsbD_flags]
  by_cases hlt : j < c * w
  · rw [h (j / w) (Nat.div_lt_of_lt_mul (by rwa [Nat.mul_comm]))]
  · simp [hlt]

theorem countP_range_add (c d : Nat) (p : Nat → Bool) :
    (List.range (c + d)).countP (fun j => decide (j < c) && p j) = (List.range c).countP p := by
  induction d with
  | zero =>
    apply List.countP_congr
    intro j hj
    have hlt : j < c := List.mem_range.mp hj
    simp [hlt]
  | succ d ih =>
    rw [← Nat.add_assoc, List.range_succ, List.countP_append, ih]
    simp

theorem popcount_flags (hc : c ≤ n) : popcount (flags n 1 c p) = (List.range c).countP p := by
  obtain ⟨d, rfl⟩ := Nat.exists_eq_add_of_le hc
  rw [← countP_range_add c d p, popcount]
  apply List.countP_congr
  intro j hj
  have hlt : j < c + d := List.mem_range.mp hj
  rw [getLsbD_flags, Nat.div_one, Nat.mul_one, decide_eq_true hlt, Bool.true_and]

/-! ## 3. Packing comparisons of pointers -/

/-- The lanes of two words of flags, one after the other. -/
def append (c : Nat) (p q : Nat → Bool) (i : Nat) : Bool := if i < c then p i else q (i - c)

theorem packsEpi32_flags_128 :
    packsEpi32 (flags 128 32 4 p) (flags 128 32 4 q) = flags 128 16 8 (append 4 p q) := by
  rw [packsEpi32_flags (by omega) (by omega)]
  apply flags_congr
  intro i hi
  unfold append
  rw [show 4 * (i / 8) = 0 by omega, Nat.mod_eq_of_lt hi, Nat.zero_add, Nat.zero_add]

theorem append_halves (d i : Nat) :
    append (d * 2) (fun i => p (i / 2)) (fun i => q (i / 2)) i = append d p q (i / 2) := by
  unfold append
  by_cases hi : i < d * 2
  · rw [if_pos hi, if_pos (by omega)]
  · rw [if_neg hi, if_neg (by omega)]
    exact congrArg q (by omega)

/-- Comparisons of 64-bit lanes are packed as pairs of 32-bit lanes. -/
theorem packsEpi32_pairs_128 :
    packsEpi32 (flags 128 64 2 p) (flags 128 64 2 q) = flags 128 32 4 (append 2 p q) := by
  calc packsEpi32 (flags 128 64 2 p) (flags 128 64 2 q)
      = packsEpi32 (flags 128 32 4 fun i => p (i / 2)) (flags 128 32 4 fun i => q (i / 2)) :=
        congrArg₂ _ (flags_split (w := 32)) (flags_split (w := 32))
    _ = flags 128 16 8 (append 4 (fun i => p (i / 2)) fun i => q (i / 2)) := packsEpi32_flags_128
    _ = flags 128 16 8 fun i => append 2 p q (i / 2) := flags_congr fun i _ => append_halves 2 i
    _ = flags 128 32 4 (append 2 p q) := (flags_split (w := 16) (c := 4)).symm

/-- In registers of 256 bits the packed comparisons of the two halves are interleaved. -/
theorem packsEpi32_pairs_256 :
    packsEpi32 (flags 256 64 4 p) (flags 256 64 4 q) = flags 256 32 8 fun i =>
      if i % 4 < 2 then p (2 * (i / 4) + i % 4) else q (2 * (i / 4) + (i % 4 - 2)) := by
  calc packsEpi32 (flags 256 64 4 p) (flags 256 64 4 q)
      = packsEpi32 (flags 256 32 8 fun i => p (i / 2)) (flags 256 32 8 fun i => q (i / 2)) :=
        congrArg₂ _ (flags_split (w := 32)) (flags_split (w := 32))
    _ = flags 256 16 16 fun i => if i % 8 < 4 then p ((4 * (i / 8) + i % 8) / 2)
          else q ((4 * (i / 8) + (i % 8 - 4)) / 2) := packsEpi32_flags (c := 8) rfl rfl
    _ = flags 256 16 16 fun i => if i / 2 % 4 < 2 then p (2 * (i / 2 / 4) + i / 2 % 4)
          else q (2 * (i / 2 / 4) + (i / 2 % 4 - 2)) := by
        refine flags_congr fun i _ => ?_
        by_cases hlow : i % 8 < 4
        · rw [if_pos hlow, if_pos (by omega)]
          exact congrArg p (by omega)
        · rw [if_neg hlow, if_neg (by omega)]
          exact congrArg q (by omega)
    _ = flags 256 32 8 fun i => if i % 4 < 2 then p (2 * (i / 4) + i % 4)
          else q (2 * (i / 4) + (i % 4 - 2)) :=
        (flags_split (w := 16) (c := 8) (p := fun i =>
          if i % 4 < 2 then p (2 * (i / 4) + i % 4) else q (2 * (i / 4) + (i % 4 - 2)))).symm

/-- A packed register is zero if and only if both registers were. -/
theorem packsEpi32_eq_zero_iff :
    packsEpi32 (flags 256 32 8 p) (flags 256 32 8 q) = 0 ↔
      flags 256 32 8 p = 0 ∧ flags 256 32 8 q = 0 := by
  rw [packsEpi32_flags (by omega) (by omega), flags_eq_zero_iff (by omega) (by omega),
    flags_eq_zero_iff (by omega) (by omega), flags_eq_zero_iff (by omega) (by omega)]
  constructor
  · intro h
    constructor
    · intro i hi
      have hlane := h (8 * (i / 4) + i % 4) (by omega)
      rwa [if_pos (by omega), show 4 * ((8 * (i / 4) + i % 4) / 8) + (8 * (i / 4) + i % 4) % 8 = i
        by omega] at hlane
    · intro i hi
      have hlane := h (8 * (i / 4) + (4 + i % 4)) (by omega)
      rwa [if_neg (by omega), show 4 * ((8 * (i / 4) + (4 + i % 4)) / 8) +
        ((8 * (i / 4) + (4 + i % 4)) % 8 - 4) = i by omega] at hlane
  · rintro ⟨hp, hq⟩ i hi
    by_cases hlow : i % 8 < 4
    · rw [if_pos hlow]
      exact hp _ (by omega)
    · rw [if_neg hlow]
      exact hq _ (by omega)

theorem packsEpi32_pairs_eq_zero_iff :
    packsEpi32 (flags 256 64 4 p) (flags 256 64 4 q) = 0 ↔
      (∀ i < 4, p i = false) ∧ ∀ i < 4, q i = false := by
  rw [packsEpi32_pairs_256, flags_eq_zero_iff (by omega) (by omega)]
  constructor
  · intro h
    constructor
    · intro i hi
      have hlane := h (4 * (i / 2) + i % 2) (by omega)
      rwa [if_pos (by omega), show 2 * ((4 * (i / 2) + i % 2) / 4) + (4 * (i / 2) + i % 2) % 4 = i
        by omega] at hlane
    · intro i hi
      have hlane := h (4 * (i / 2) + (2 + i % 2)) (by omega)
      rwa [if_neg (by omega), show 2 * ((4 * (i / 2) + (2 + i % 2)) / 4) +
        ((4 * (i / 2) + (2 + i % 2)) % 4 - 2) = i by omega] at hlane
  · rintro ⟨hp, hq⟩ i hi
    by_cases hlow : i % 4 < 2
    · rw [if_pos hlow]
      exact hp _ (by omega)
    · rw [if_neg hlow]
      exact hq _ (by omega)

/-- The permutation `0b11'01'10'00` undoes the interleaving of the two halves. -/
theorem permute4x64_packsEpi32_flags :
    permute4x64 (packsEpi32 (flags 256 32 8 p) (flags 256 32 8 q)) 0b11011000 =
      flags 256 16 16 (append 8 p q) := by
  have hsel : ∀ k < 4, (((0b11011000 : BitVec 8) >>> (2 * k)) &&& 3).toNat =
      if k = 0 then 0 else if k = 1 then 2 else if k = 2 then 1 else 3 := by decide
  rw [packsEpi32_flags (by omega) (by omega), permute4x64_flags]
  apply flags_congr
  intro i hi
  rw [hsel (i / 4) (by omega)]
  unfold append
  by_cases h0 : i / 4 = 0
  · rw [if_pos h0, if_pos (by omega), if_pos (by omega)]
    congr 1
    omega
  · by_cases h1 : i / 4 = 1
    · rw [if_neg h0, if_pos h1, if_pos (by omega), if_pos (by omega)]
      congr 1
      omega
    · by_cases h2 : i / 4 = 2
      · rw [if_neg h0, if_neg h1, if_pos h2, if_neg (by omega), if_neg (by omega)]
        congr 1
        omega
      · rw [if_neg h0, if_neg h1, if_neg h2, if_neg (by omega), if_neg (by omega)]
        congr 1
        omega

theorem permute4x64_packsEpi32_pairs :
    permute4x64 (packsEpi32 (flags 256 64 4 p) (flags 256 64 4 q)) 0b11011000 =
      flags 256 32 8 (append 4 p q) := by
  calc permute4x64 (packsEpi32 (flags 256 64 4 p) (flags 256 64 4 q)) 0b11011000
      = permute4x64 (packsEpi32 (flags 256 32 8 fun i => p (i / 2))
          (flags 256 32 8 fun i => q (i / 2))) 0b11011000 :=
        congrArg₂ (fun x y => permute4x64 (packsEpi32 x y) _) (flags_split (w := 32))
          (flags_split (w := 32))
    _ = flags 256 16 16 (append 8 (fun i => p (i / 2)) fun i => q (i / 2)) :=
        permute4x64_packsEpi32_flags
    _ = flags 256 16 16 fun i => append 4 p q (i / 2) := flags_congr fun i _ => append_halves 4 i
    _ = flags 256 32 8 (append 4 p q) := (flags_split (w := 16) (c := 8)).symm

end Simd
