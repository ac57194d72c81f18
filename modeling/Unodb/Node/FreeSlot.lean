import Unodb.Node.Layout
import Unodb.Util.Simd

/-!
# The search for a free slot in `basic_inode_48::add_to_nonfull`, by architecture

The loop looks at one block of pointers after the other.  With vector instructions it compares four
registers of pointers with null at once and packs the results into one word.
-/

open Lanes Simd

namespace Unodb

/-- `children` of `basic_inode_48`: the pointers as words, with null as 0. -/
structure PointerArray where
  pointers : List (BitVec 64)
  length_eq : pointers.length = 48

namespace PointerArray

variable (children : PointerArray)

/-- A pointer of the array. -/
def ptr (i : Nat) : BitVec 64 := children.pointers.getD i 0

/-- `children.pointer_array[i]`. -/
def pointerArray (i : Nat) : Except Fault (BitVec 64) :=
  if i < 48 then .ok (children.ptr i) else .error .badAccess

/-- The pointers of element `i` of `children.pointer_vector`, in registers of `n` bits. -/
def register (n i : Nat) : BitVec n := ofLanes n fun j => children.ptr (i * (n / 64) + j)

/-- `children.pointer_vector[i]`. -/
def pointerVector (n i : Nat) : Except Fault (BitVec n) :=
  if (i + 1) * (n / 64) ≤ 48 then .ok (children.register n i) else .error .badAccess

/-- One round of the loop for SSE4.2: the index of a free slot, if there is one. -/
def roundSse (i : Nat) : Except Fault (Option Nat) := do
  let nullptrVector := setzero 128
  let ptrVec0 ← children.pointerVector 128 i
  let ptrVec1 ← children.pointerVector 128 (i + 1)
  let ptrVec2 ← children.pointerVector 128 (i + 2)
  let ptrVec3 ← children.pointerVector 128 (i + 3)
  -- A lane of a null pointer is all ones; two comparisons are packed into one register.
  let vec01Cmp := packsEpi32 (cmpeq 64 ptrVec0 nullptrVector) (cmpeq 64 ptrVec1 nullptrVector)
  let vec23Cmp := packsEpi32 (cmpeq 64 ptrVec2 nullptrVector) (cmpeq 64 ptrVec3 nullptrVector)
  let vecCmp := packsEpi32 vec01Cmp vec23Cmp
  let cmpMask := (movemaskEpi8 vecCmp).signExtend 64
  -- Two bits of the mask for each pointer, the lowest one first.
  if cmpMask ≠ 0 then return some ((i <<< 1) + ((cmpMask.ctz.toNat + 1) >>> 1)) else return none

/-- One round of the loop for AVX2. -/
def roundAvx2 (i : Nat) : Except Fault (Option Nat) := do
  let nullptrVector := setzero 256
  let ptrVec0 ← children.pointerVector 256 i
  let ptrVec1 ← children.pointerVector 256 (i + 1)
  let ptrVec2 ← children.pointerVector 256 (i + 2)
  let ptrVec3 ← children.pointerVector 256 (i + 3)
  -- The 256-bit pack works within each half, so that the lanes come out interleaved.
  let interleavedVec01Cmp :=
    packsEpi32 (cmpeq 64 ptrVec0 nullptrVector) (cmpeq 64 ptrVec1 nullptrVector)
  let interleavedVec23Cmp :=
    packsEpi32 (cmpeq 64 ptrVec2 nullptrVector) (cmpeq 64 ptrVec3 nullptrVector)
  let doublyInterleavedVecCmp := packsEpi32 interleavedVec01Cmp interleavedVec23Cmp
  if testz doublyInterleavedVecCmp doublyInterleavedVecCmp then return none
  else
    -- The halves are put back in order before the mask is taken.
    let vec01Cmp := permute4x64 interleavedVec01Cmp 0b11011000
    let vec23Cmp := permute4x64 interleavedVec23Cmp 0b11011000
    let interleavedVecCmp := packsEpi32 vec01Cmp vec23Cmp
    let vecCmp := permute4x64 interleavedVecCmp 0b11011000
    let cmpMask := (movemaskEpi8 vecCmp).signExtend 64
    return some ((i <<< 2) + (cmpMask.ctz.toNat >>> 1))

/-- One round of the loop for NEON. -/
def roundNeon (i : Nat) : Except Fault (Option Nat) := do
  let nullptrVector := setAll 128 0#64
  let ptrVec0 ← children.pointerVector 128 i
  let ptrVec1 ← children.pointerVector 128 (i + 1)
  let ptrVec2 ← children.pointerVector 128 (i + 2)
  let ptrVec3 ← children.pointerVector 128 (i + 3)
  -- A comparison is narrowed to half its width, three times, to a byte for each pointer.
  let narrowedCmp0 := shrn 32 (cmpeq 64 nullptrVector ptrVec0) 4
  let narrowedCmp1 := shrn 32 (cmpeq 64 nullptrVector ptrVec1) 4
  let narrowedCmp2 := shrn 32 (cmpeq 64 nullptrVector ptrVec2) 4
  let narrowedCmp3 := shrn 32 (cmpeq 64 nullptrVector ptrVec3) 4
  let narrowedCmp01 := shrn 16 (combine narrowedCmp0 narrowedCmp1) 4
  let narrowedCmp23 := shrn 16 (combine narrowedCmp2 narrowedCmp3) 4
  let narrowedCmp := shrn 8 (combine narrowedCmp01 narrowedCmp23) 4
  if narrowedCmp ≠ 0 then return some ((i <<< 1) + (narrowedCmp.ctz.toNat >>> 3)) else return none

/-- One round of the scalar loop. -/
def roundScalar (i : Nat) : Except Fault (Option Nat) := do
  -- A free slot is known to exist, and the index is eight bits wide.
  if (← children.pointerArray i) = 0 then return some i
  assertThat (i < 255)
  return none

/-- `while (true)`, with `i` advanced by `step` after a round that finds nothing. -/
def loop (round : Nat → Except Fault (Option Nat)) (step : Nat) : Nat → Nat → Except Fault Nat
  | 0, _ => .error .outOfFuel
  | fuel + 1, i => do
    match ← round i with
    | some result => return result
    | none => loop round step fuel (i + step)

/-- The versions of the search. -/
inductive Version where
  | sse42
  | avx2
  | neon
  | scalar
deriving DecidableEq, Repr

/-- The loop of the architecture. -/
def search : Version → Nat → Except Fault Nat
  | .sse42, fuel => loop children.roundSse 4 fuel 0
  | .avx2, fuel => loop children.roundAvx2 4 fuel 0
  | .neon, fuel => loop children.roundNeon 4 fuel 0
  | .scalar, fuel => loop children.roundScalar 1 fuel 0

/-- The search, with the assertions that follow it. -/
def freeSlot (version : Version) (fuel : Nat) : Except Fault Nat := do
  let i ← children.search version fuel
  assertThat (i < 48)
  assertThat (children.ptr i = 0)
  assertThat (∀ j < i, children.ptr j ≠ 0)
  return i

/-! ## 1. Rounds -/

variable {children : PointerArray} {n i k : Nat}

/-- The slot is free. -/
def isNull (children : PointerArray) (i : Nat) : Bool := children.ptr i == 0

theorem pointerVector_eq (h : (i + 1) * (n / 64) ≤ 48) :
    children.pointerVector n i = .ok (children.register n i) := if_pos h

/-- The comparison of a register of `c` pointers with null. -/
theorem cmpeq_register (c : Nat) (hc : c * 64 = n) :
    cmpeq 64 (children.register n i) (setzero n) =
      flags n 64 c fun j => children.isNull (i * c + j) := by
  have hdiv : n / 64 = c := by omega
  rw [cmpeq_eq_flags _ _ (by omega) hc]
  apply flags_congr
  intro j hj
  have hzero : lane 64 (setzero n) j = 0 := by
    rw [lane, setzero]
    exact BitVec.extractLsb'_zero
  rw [register, hdiv, lane_ofLanes _ (by omega), hzero]
  rfl

/-- The operands of the NEON comparison stand the other way round. -/
theorem cmpeq_null_register (c : Nat) (hc : c * 64 = n) :
    cmpeq 64 (setAll n 0#64) (children.register n i) =
      flags n 64 c fun j => children.isNull (i * c + j) := by
  have hdiv : n / 64 = c := by omega
  rw [cmpeq_eq_flags _ _ (by omega) hc]
  apply flags_congr
  intro j hj
  rw [register, hdiv, lane_ofLanes _ (by omega), lane_setAll _ (by omega)]
  exact Bool.beq_comm

/-- The comparisons of four registers of `c` pointers that follow each other. -/
theorem append_isNull (c j : Nat) :
    append (2 * c) (append c (fun j => children.isNull (i * c + j))
        fun j => children.isNull ((i + 1) * c + j))
      (append c (fun j => children.isNull ((i + 2) * c + j))
        fun j => children.isNull ((i + 3) * c + j)) j = children.isNull (i * c + j) := by
  unfold append
  by_cases h2 : j < 2 * c
  · rw [if_pos h2]
    by_cases h1 : j < c
    · rw [if_pos h1]
    · rw [if_neg h1]
      exact congrArg children.isNull (by rw [Nat.add_mul]; omega)
  · rw [if_neg h2]
    by_cases h3 : j - 2 * c < c
    · rw [if_pos h3]
      exact congrArg children.isNull (by rw [Nat.add_mul]; omega)
    · rw [if_neg h3]
      exact congrArg children.isNull (by rw [Nat.add_mul]; omega)

/-- A round looks at `m` slots: it goes on if none of them is free, and gives the first one that
is. -/
structure Looks (children : PointerArray) (start m : Nat) (result : Except Fault (Option Nat)) :
    Prop where
  none : (∀ j < m, children.isNull (start + j) = false) → result = .ok none
  some : ∀ j < m, children.isNull (start + j) = true →
    (∀ l < j, children.isNull (start + l) = false) → result = .ok (some (start + j))

/-- A round that turns the flags of the slots into an index. -/
theorem looks_of_flags {start m w : Nat} {result : Except Fault (Option Nat)} (hw : 0 < w)
    (hn : m * w ≤ n)
    (hnone : flags n w m (fun j => children.isNull (start + j)) = 0 → result = .ok none)
    (hsome : ∀ j < m, flags n w m (fun j => children.isNull (start + j)) ≠ 0 →
      (flags n w m fun j => children.isNull (start + j)).ctz.toNat = j * w →
      result = .ok (some (start + j))) : children.Looks start m result where
  none h := hnone ((flags_eq_zero_iff hw hn).mpr h)
  some j hj hfree hbelow := by
    have hctz := ctz_flags (n := n) (p := fun j => children.isNull (start + j)) hw hn hj hfree hbelow
    refine hsome j hj (fun h0 => ?_) hctz
    have hfalse := (flags_eq_zero_iff hw hn).mp h0 j hj
    rw [hfree] at hfalse
    cases hfalse

/-! ## 2. SSE4.2 -/

/-- The four comparisons of a round, packed. -/
theorem packed_128 :
    packsEpi32
      (packsEpi32 (cmpeq 64 (children.register 128 i) (setzero 128))
        (cmpeq 64 (children.register 128 (i + 1)) (setzero 128)))
      (packsEpi32 (cmpeq 64 (children.register 128 (i + 2)) (setzero 128))
        (cmpeq 64 (children.register 128 (i + 3)) (setzero 128))) =
      flags 128 16 8 fun j => children.isNull (i * 2 + j) := by
  rw [cmpeq_register 2 rfl, cmpeq_register 2 rfl, cmpeq_register 2 rfl, cmpeq_register 2 rfl,
    packsEpi32_pairs_128, packsEpi32_pairs_128, packsEpi32_flags_128]
  exact flags_congr fun j _ => append_isNull 2 j

theorem roundSse_looks (hi : i + 4 ≤ 24) : children.Looks (i * 2) 8 (children.roundSse i) := by
  have hround : children.roundSse i =
      if (flags 32 2 8 fun j => children.isNull (i * 2 + j)).signExtend 64 ≠ 0 then
        .ok (some ((i <<< 1) + ((((flags 32 2 8 fun j =>
          children.isNull (i * 2 + j)).signExtend 64).ctz.toNat + 1) >>> 1)))
      else .ok none := by
    unfold roundSse
    rw [pointerVector_eq (by omega), pointerVector_eq (by omega), pointerVector_eq (by omega),
      pointerVector_eq (by omega), ← movemaskEpi8_flags (n := 128) (w := 16) rfl (by omega),
      ← packed_128]
    rfl
  refine looks_of_flags (n := 32) (w := 2) (by omega) (by omega) (fun h0 => ?_)
    fun j hj hne hctz => ?_
  · rw [hround, h0]
    rfl
  · rw [hround, if_pos (signExtend_ne_zero (by omega) hne), ctz_signExtend (by omega) hne, hctz,
      Nat.shiftLeft_eq, Nat.shiftRight_eq_div_pow, show (j * 2 + 1) / 2 ^ 1 = j by omega]

/-! ## 3. AVX2 -/

/-- The comparisons of two registers, put in order. -/
theorem permuted_256 :
    permute4x64 (packsEpi32 (cmpeq 64 (children.register 256 i) (setzero 256))
      (cmpeq 64 (children.register 256 (i + 1)) (setzero 256))) 0b11011000 =
      flags 256 32 8 (append 4 (fun j => children.isNull (i * 4 + j))
        fun j => children.isNull ((i + 1) * 4 + j)) := by
  rw [cmpeq_register 4 rfl, cmpeq_register 4 rfl, permute4x64_packsEpi32_pairs]

theorem packed_256 :
    permute4x64 (packsEpi32
      (permute4x64 (packsEpi32 (cmpeq 64 (children.register 256 i) (setzero 256))
        (cmpeq 64 (children.register 256 (i + 1)) (setzero 256))) 0b11011000)
      (permute4x64 (packsEpi32 (cmpeq 64 (children.register 256 (i + 2)) (setzero 256))
        (cmpeq 64 (children.register 256 (i + 3)) (setzero 256))) 0b11011000)) 0b11011000 =
      flags 256 16 16 fun j => children.isNull (i * 4 + j) := by
  rw [permuted_256, permuted_256, permute4x64_packsEpi32_flags]
  exact flags_congr fun j _ => append_isNull 4 j

/-- Whether any slot is free is seen before the comparisons are put in order. -/
theorem interleaved_256 :
    packsEpi32
      (packsEpi32 (cmpeq 64 (children.register 256 i) (setzero 256))
        (cmpeq 64 (children.register 256 (i + 1)) (setzero 256)))
      (packsEpi32 (cmpeq 64 (children.register 256 (i + 2)) (setzero 256))
        (cmpeq 64 (children.register 256 (i + 3)) (setzero 256))) = 0 ↔
      flags 32 2 16 (fun j => children.isNull (i * 4 + j)) = 0 := by
  have hzero : ∀ k, (packsEpi32 (cmpeq 64 (children.register 256 k) (setzero 256))
      (cmpeq 64 (children.register 256 (k + 1)) (setzero 256)) = 0) ↔
        (∀ j < 4, children.isNull (k * 4 + j) = false) ∧
          ∀ j < 4, children.isNull ((k + 1) * 4 + j) = false := by
    intro k
    rw [cmpeq_register 4 rfl, cmpeq_register 4 rfl, packsEpi32_pairs_eq_zero_iff]
  have hpair : ∀ k, packsEpi32 (cmpeq 64 (children.register 256 k) (setzero 256))
      (cmpeq 64 (children.register 256 (k + 1)) (setzero 256)) = flags 256 32 8 fun j =>
        if j % 4 < 2 then children.isNull (k * 4 + (2 * (j / 4) + j % 4))
        else children.isNull ((k + 1) * 4 + (2 * (j / 4) + (j % 4 - 2))) := by
    intro k
    rw [cmpeq_register 4 rfl, cmpeq_register 4 rfl, packsEpi32_pairs_256]
  rw [flags_eq_zero_iff (by omega) (by omega), hpair i, hpair (i + 2), packsEpi32_eq_zero_iff,
    ← hpair i, ← hpair (i + 2), hzero, hzero]
  constructor
  · rintro ⟨⟨h0, h1⟩, h2, h3⟩ j hj
    by_cases hj1 : j < 4
    · exact h0 j hj1
    · by_cases hj2 : j < 8
      · have hfree := h1 (j - 4) (by omega)
        rwa [show (i + 1) * 4 + (j - 4) = i * 4 + j by omega] at hfree
      · by_cases hj3 : j < 12
        · have hfree := h2 (j - 8) (by omega)
          rwa [show (i + 2) * 4 + (j - 8) = i * 4 + j by omega] at hfree
        · have hfree := h3 (j - 12) (by omega)
          rwa [show (i + 2 + 1) * 4 + (j - 12) = i * 4 + j by omega] at hfree
  · intro h
    refine ⟨⟨fun j hj => h j (by omega), fun j hj => ?_⟩, fun j hj => ?_, fun j hj => ?_⟩
    · rw [show (i + 1) * 4 + j = i * 4 + (j + 4) by omega]
      exact h _ (by omega)
    · rw [show (i + 2) * 4 + j = i * 4 + (j + 8) by omega]
      exact h _ (by omega)
    · rw [show (i + 2 + 1) * 4 + j = i * 4 + (j + 12) by omega]
      exact h _ (by omega)

theorem testz_self_iff (x : BitVec n) : testz x x = true ↔ x = 0 := by
  rw [testz, BitVec.and_self, beq_iff_eq]

theorem roundAvx2_looks (hi : i + 4 ≤ 12) : children.Looks (i * 4) 16 (children.roundAvx2 i) := by
  have hround : children.roundAvx2 i =
      if flags 32 2 16 (fun j => children.isNull (i * 4 + j)) = 0 then .ok none
      else .ok (some ((i <<< 2) + (((flags 32 2 16 fun j =>
        children.isNull (i * 4 + j)).signExtend 64).ctz.toNat >>> 1))) := by
    rw [← if_congr interleaved_256 rfl rfl, ← if_congr (testz_self_iff _) rfl rfl,
      ← movemaskEpi8_flags (n := 256) (w := 16) rfl (by omega), ← packed_256]
    unfold roundAvx2
    rw [pointerVector_eq (by omega), pointerVector_eq (by omega), pointerVector_eq (by omega),
      pointerVector_eq (by omega)]
    rfl
  refine looks_of_flags (n := 32) (w := 2) (by omega) (by omega) (fun h0 => ?_)
    fun j hj hne hctz => ?_
  · rw [hround, if_pos h0]
  · rw [hround, if_neg hne, ctz_signExtend (by omega) hne, hctz,
      Nat.shiftLeft_eq, Nat.shiftRight_eq_div_pow, show j * 2 / 2 ^ 1 = j by omega]

/-! ## 4. NEON -/

theorem narrowed_64 :
    shrn 8 (combine
      (shrn 16 (combine (shrn 32 (cmpeq 64 (setAll 128 0#64) (children.register 128 i)) 4)
        (shrn 32 (cmpeq 64 (setAll 128 0#64) (children.register 128 (i + 1))) 4)) 4)
      (shrn 16 (combine (shrn 32 (cmpeq 64 (setAll 128 0#64) (children.register 128 (i + 2))) 4)
        (shrn 32 (cmpeq 64 (setAll 128 0#64) (children.register 128 (i + 3))) 4)) 4)) 4 =
      flags 64 8 8 fun j => children.isNull (i * 2 + j) := by
  rw [cmpeq_null_register 2 rfl, cmpeq_null_register 2 rfl, cmpeq_null_register 2 rfl,
    cmpeq_null_register 2 rfl]
  rw [shrn_flags (w := 32) (by omega) (by omega), shrn_flags (w := 32) (by omega) (by omega),
    shrn_flags (w := 32) (by omega) (by omega), shrn_flags (w := 32) (by omega) (by omega),
    combine_flags (by omega) (by omega), combine_flags (by omega) (by omega),
    shrn_flags (w := 16) (by omega) (by omega), shrn_flags (w := 16) (by omega) (by omega),
    combine_flags (by omega) (by omega), shrn_flags (w := 8) (by omega) (by omega)]
  exact flags_congr fun j _ => append_isNull 2 j

theorem roundNeon_looks (hi : i + 4 ≤ 24) : children.Looks (i * 2) 8 (children.roundNeon i) := by
  have hround : children.roundNeon i =
      if (flags 64 8 8 fun j => children.isNull (i * 2 + j)) ≠ 0 then
        .ok (some ((i <<< 1) + ((flags 64 8 8 fun j =>
          children.isNull (i * 2 + j)).ctz.toNat >>> 3)))
      else .ok none := by
    unfold roundNeon
    rw [pointerVector_eq (by omega), pointerVector_eq (by omega), pointerVector_eq (by omega),
      pointerVector_eq (by omega), ← narrowed_64]
    rfl
  refine looks_of_flags (n := 64) (w := 8) (by omega) (by omega) (fun h0 => ?_)
    fun j hj hne hctz => ?_
  · rw [hround, h0]
    rfl
  · rw [hround, if_pos hne, hctz, Nat.shiftLeft_eq, Nat.shiftRight_eq_div_pow,
      show j * 8 / 2 ^ 3 = j by omega]

/-! ## 5. The scalar loop -/

theorem roundScalar_looks (hi : i < 48) : children.Looks i 1 (children.roundScalar i) := by
  have hround : children.roundScalar i =
      if children.ptr i = 0 then .ok (some i) else .ok none := by
    unfold roundScalar pointerArray
    rw [if_pos hi, assertThat_pos (by omega)]
    rfl
  constructor
  · intro h
    have hne : children.ptr i ≠ 0 := by simpa [isNull] using h 0 (by omega)
    rw [hround, if_neg hne]
  · intro j hj hfree _
    obtain rfl : j = 0 := by omega
    have hzero : children.ptr i = 0 := by simpa [isNull] using hfree
    rw [hround, if_pos hzero]
    rfl

/-! ## 6. The whole search -/

/-- The first free slot. -/
structure FirstNull (children : PointerArray) (k : Nat) : Prop where
  lt : k < 48
  null : children.ptr k = 0
  before : ∀ j < k, children.ptr j ≠ 0

theorem FirstNull.isNull (h : children.FirstNull k) : children.isNull k = true :=
  beq_iff_eq.mpr h.null

theorem FirstNull.isNull_before (h : children.FirstNull k) {j : Nat} (hj : j < k) :
    children.isNull j = false := beq_eq_false_iff_ne.mpr (h.before j hj)

theorem exists_firstNull (h : ∃ i < 48, children.ptr i = 0) : ∃ k, children.FirstNull k := by
  obtain ⟨hlt, hnull⟩ := Nat.find_spec h
  refine ⟨Nat.find h, hlt, hnull, fun j hj hj0 => ?_⟩
  exact Nat.find_min h hj ⟨by omega, hj0⟩

section

variable {round : Nat → Except Fault (Option Nat)} {step m t fuel : Nat}

/-- From round `t` on the loop comes to the block of the first free slot. -/
theorem loop_from (hm : 0 < m)
    (hlooks : ∀ t, m * (t + 1) ≤ 48 → children.Looks (m * t) m (round (step * t)))
    (hdvd : m ∣ 48) (hk : children.FirstNull k) (ht : m * t ≤ k) (hfuel : k / m < fuel + t) :
    loop round step fuel (step * t) = .ok k := by
  induction fuel generalizing t with
  | zero =>
    have hle : t ≤ k / m := (Nat.le_div_iff_mul_le hm).mpr (by rwa [Nat.mul_comm])
    omega
  | succ fuel ih =>
    have hblock : m * (t + 1) ≤ 48 := by
      obtain ⟨q, hq⟩ := hdvd
      have hk48 := hk.lt
      have hlt : t < q := Nat.lt_of_mul_lt_mul_left (a := m) (by omega)
      rw [hq]
      exact Nat.mul_le_mul_left m hlt
    have hround := hlooks t hblock
    rw [loop]
    by_cases hin : k < m * (t + 1)
    · -- The slot is in this block.
      rw [Nat.mul_succ] at hin
      have hstart : m * t + (k - m * t) = k := by omega
      have hfound := hround.some (k - m * t) (by omega) (by rw [hstart]; exact hk.isNull)
        fun l hl => hk.isNull_before (by omega)
      rw [hfound, hstart]
      rfl
    · have hnone := hround.none fun j hj => hk.isNull_before (by rw [Nat.mul_succ] at hin; omega)
      rw [hnone]
      exact ih (t := t + 1) (by omega) (by omega)

theorem loop_eq (hm : 0 < m)
    (hlooks : ∀ t, m * (t + 1) ≤ 48 → children.Looks (m * t) m (round (step * t)))
    (hdvd : m ∣ 48) (hk : children.FirstNull k) (hfuel : 48 ≤ fuel) :
    loop round step fuel 0 = .ok k := by
  have hdiv : k / m ≤ k := Nat.div_le_self k m
  have hlt := hk.lt
  exact loop_from (t := 0) hm hlooks hdvd hk (by omega) (by omega)

end

theorem search_eq (hk : children.FirstNull k) (version : Version) (hfuel : 48 ≤ fuel) :
    children.search version fuel = .ok k := by
  cases version with
  | sse42 =>
    refine loop_eq (m := 8) (by omega) (fun t ht => ?_) (by decide) hk hfuel
    have hlooks := children.roundSse_looks (i := 4 * t) (by omega)
    rwa [show 4 * t * 2 = 8 * t by omega] at hlooks
  | avx2 =>
    refine loop_eq (m := 16) (by omega) (fun t ht => ?_) (by decide) hk hfuel
    have hlooks := children.roundAvx2_looks (i := 4 * t) (by omega)
    rwa [show 4 * t * 4 = 16 * t by omega] at hlooks
  | neon =>
    refine loop_eq (m := 8) (by omega) (fun t ht => ?_) (by decide) hk hfuel
    have hlooks := children.roundNeon_looks (i := 4 * t) (by omega)
    rwa [show 4 * t * 2 = 8 * t by omega] at hlooks
  | scalar =>
    refine loop_eq (m := 1) (by omega) (fun t ht => ?_) (by decide) hk hfuel
    exact children.roundScalar_looks (i := 1 * t) (by omega)

/-- The node model searches for the same slot. -/
theorem FirstNull.findIdx_isNone {P : Type} {pointers : List (Option P)} {address : P → BitVec 64}
    (hne : ∀ p, address p ≠ 0)
    (hpointers : children.pointers = pointers.map fun p => p.elim 0 address)
    (hk : children.FirstNull k) : pointers.findIdx (·.isNone) = k := by
  have hlen : pointers.length = 48 := by
    have hmap := congrArg List.length hpointers
    rw [List.length_map, children.length_eq] at hmap
    exact hmap.symm
  have hnull : ∀ (i : Nat) (hi : i < pointers.length),
      children.ptr i = 0 ↔ pointers[i].isNone = true := by
    intro i hi
    rw [ptr, hpointers, List.getD_eq_getElem?_getD, List.getElem?_map,
      List.getElem?_eq_getElem hi, Option.map_some, Option.getD_some]
    cases pointers[i] with
    | none => simp
    | some p => exact iff_of_false (hne p) (by simp)
  have hlt : k < pointers.length := by
    rw [hlen]
    exact hk.lt
  rw [List.findIdx_eq hlt]
  refine ⟨(hnull k hlt).mp hk.null, fun j hj => ?_⟩
  exact Bool.eq_false_iff.mpr ((hnull j (by omega)).not.mp (hk.before j hj))

/-- Every version of the search gives the first free slot, past all assertions. -/
theorem freeSlot_eq_firstNull (children : PointerArray) (h : ∃ i < 48, children.ptr i = 0) :
    ∃ k, children.FirstNull k ∧
      ∀ (version : Version) (fuel : Nat), 48 ≤ fuel → children.freeSlot version fuel = .ok k := by
  obtain ⟨k, hk⟩ := exists_firstNull h
  refine ⟨k, hk, fun version fuel hfuel => ?_⟩
  unfold freeSlot
  rw [search_eq hk version hfuel]
  change (do assertThat (k < 48); assertThat (children.ptr k = 0)
             assertThat (∀ j < k, children.ptr j ≠ 0); return k) = _
  rw [assertThat_pos hk.lt, assertThat_pos hk.null, assertThat_pos hk.before]
  rfl

/-- An array with one free slot, the last one of the third register. -/
theorem freeSlot_eq_firstNull_five : ∃ children : PointerArray, children.FirstNull 5 ∧
    ∀ version : Version, children.freeSlot version 48 = .ok 5 := by
  let children : PointerArray := ⟨(List.replicate 48 8).set 5 0, by decide⟩
  obtain ⟨k, hk, hall⟩ := freeSlot_eq_firstNull children ⟨5, by decide, by decide⟩
  have hfive : children.FirstNull 5 := ⟨by decide, by decide, by decide⟩
  obtain rfl : k = 5 := by
    rcases Nat.lt_trichotomy k 5 with hlt | heq | hgt
    · exact absurd hk.null (hfive.before k hlt)
    · exact heq
    · exact absurd hfive.null (hk.before 5 hgt)
  exact ⟨children, hk, fun version => hall version 48 le_rfl⟩

end PointerArray
end Unodb
