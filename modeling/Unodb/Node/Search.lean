import Unodb.Node.Dense
import Unodb.Util.Simd
import Mathlib.Tactic.IntervalCases

/-!
# Key searches of the two smaller node types, by architecture

`basic_inode_4` and `basic_inode_16` search their key arrays with SSE instructions on x86-64, with
NEON instructions on ARM, and with scalar code elsewhere.
-/

open Words Lanes Simd

namespace Unodb

/-- The fields of `basic_inode_4` and `basic_inode_16` that their searches read.  Positions after
the first `children_count` may hold anything. -/
structure KeyArray (capacity : Nat) where
  byteArray : List UInt8
  childrenCount : Nat
  length_eq : byteArray.length = capacity
  count_le : childrenCount ≤ capacity
  sorted : (byteArray.take childrenCount).Pairwise (· < ·)

/-- `_mm_cmple_epu8`. -/
def cmpleEpu8 (x y : BitVec 128) : BitVec 128 := cmpeq 8 (maxU 8 y x) y

/-- `has_zero_byte`. -/
def hasZeroByte (v : BitVec 32) : BitVec 32 := (v - 0x01010101#32) &&& ~~~v &&& 0x80808080#32

/-- `contains_byte`. -/
def containsByte (v : BitVec 32) (b : UInt8) : BitVec 32 :=
  hasZeroByte (v ^^^ (0x01010101#32 * b.toBitVec.setWidth 32))

namespace KeyArray

variable {capacity : Nat}

/-- A byte of the array. -/
def key (node : KeyArray capacity) (i : Nat) : UInt8 := node.byteArray.getD i 0

/-- `keys.integer` and `keys.byte_vector`: the array as one word. -/
def packed (node : KeyArray capacity) (n : Nat) : BitVec n :=
  ofLanes n fun i => (node.key i).toBitVec

/-- `(1U << children_count) - 1`. -/
def countMask (node : KeyArray capacity) : BitVec 32 := (1#32 <<< node.childrenCount) - 1#32

/-! ## 1. `find_child`

The result is the index of the child. -/

/-- The body of the SSE searches, from the register with the keys on. -/
def findChildSse (node : KeyArray capacity) (keysInSseReg : BitVec 128) (keyByte : UInt8) :
    Option Nat :=
  let replicatedSearchKey := setAll 128 keyByte.toBitVec
  let matchingKeyPositions := cmpeq 8 replicatedSearchKey keysInSseReg
  let bitField := movemaskEpi8 matchingKeyPositions &&& node.countMask
  if bitField ≠ 0 then some bitField.ctz.toNat else none

/-- `basic_inode_4::find_child` on x86-64. -/
def findChild4Sse (node : KeyArray 4) (keyByte : UInt8) : Option Nat :=
  node.findChildSse (cvtsi32 (node.packed 32)) keyByte

/-- `basic_inode_16::find_child` on x86-64. -/
def findChild16Sse (node : KeyArray 16) (keyByte : UInt8) : Option Nat :=
  node.findChildSse (node.packed 128) keyByte

/-- `basic_inode_4::find_child` on ARM. -/
def findChild4Neon (node : KeyArray 4) (keyByte : UInt8) : Option Nat :=
  let replicatedSearchKey := setAll 128 keyByte.toBitVec
  let keysInNeonReg := setLane (node.packed 32) (setAll 128 0#32) 0
  let mask := (1#64 <<< (node.childrenCount <<< 3)) - 1#64
  let matchingKeyPositions := cmpeq 8 replicatedSearchKey keysInNeonReg
  let maskedPos := getLow matchingKeyPositions &&& mask
  if maskedPos = 0 then none else some (maskedPos.ctz.toNat >>> 3)

/-- `basic_inode_16::find_child` on ARM. -/
def findChild16Neon (node : KeyArray 16) (keyByte : UInt8) : Option Nat :=
  let replicatedSearchKey := setAll 128 keyByte.toBitVec
  let matchingKeyPositions := cmpeq 8 replicatedSearchKey (node.packed 128)
  let narrowedPositions := shrn 8 matchingKeyPositions 4
  let mask :=
    if node.childrenCount = 16 then 0xFFFFFFFFFFFFFFFF#64
    else (1#64 <<< (node.childrenCount <<< 2)) - 1#64
  let maskedPos := narrowedPositions &&& mask
  if maskedPos = 0 then none else some (maskedPos.ctz.toNat >>> 2)

/-- `basic_inode_4::find_child` elsewhere. -/
def findChild4Scalar (node : KeyArray 4) (keyByte : UInt8) : Option Nat :=
  let found := containsByte (node.packed 32) keyByte
  if found = 0 then none
  else
    let result := found.ctz.toNat >>> 3
    if node.childrenCount ≤ result then none else some result

/-- `basic_inode_16::find_child` elsewhere. -/
def findChild16Scalar (node : KeyArray 16) (keyByte : UInt8) : Option Nat :=
  (List.range node.childrenCount).find? fun i => keyByte == node.key i

/-! ## 2. Insert positions -/

/-- `basic_inode_4::get_insert_pos`, on x86-64. -/
def getInsertPos (node : KeyArray 4) (insertKeyByte : UInt8) (nodeKeyMask : BitVec 32) :
    Except Fault Nat := do
  assertThat (nodeKeyMask = node.countMask)
  let replicatedInsertKeyByte := setAll 128 insertKeyByte.toBitVec
  let nodeKeysInSseReg := cvtsi32 (node.packed 32)
  let leNodeKeyPositions := cmpleEpu8 nodeKeysInSseReg replicatedInsertKeyByte
  return popcount (movemaskEpi8 leNodeKeyPositions &&& nodeKeyMask)

/-- `first_lt` and its siblings of the baseline, by position. -/
def keyLt (node : KeyArray 4) (keyByte : UInt8) (i : Nat) : Nat :=
  if (node.packed 32 >>> (8 * i)) &&& 0xFF#32 < keyByte.toBitVec.setWidth 32 then 1 else 0

/-- The insert position of the baseline in `basic_inode_4::add_to_nonfull`. -/
def insertPosBaseline (node : KeyArray 4) (keyByte : UInt8) : Nat :=
  node.keyLt keyByte 0 + node.keyLt keyByte 1 + node.keyLt keyByte 2

/-- The insert position of the baseline in `basic_inode_16::init` from a `basic_inode_4`. -/
def growPosBaseline (node : KeyArray 4) (keyByte : UInt8) : Nat :=
  node.keyLt keyByte 0 + node.keyLt keyByte 1 + node.keyLt keyByte 2 + node.keyLt keyByte 3

/-- What `basic_inode_16::get_sorted_key_array_insert_position` computes on x86-64. -/
def sortedInsertPosSse (node : KeyArray 16) (keyByte : UInt8) : Nat :=
  let replicatedInsertKey := setAll 128 keyByte.toBitVec
  let lesserKeyPositions := cmpleEpu8 replicatedInsertKey (node.packed 128)
  let bitField := movemaskEpi8 lesserKeyPositions &&& node.countMask
  if bitField ≠ 0 then bitField.ctz.toNat else node.childrenCount

/-- What `basic_inode_16::get_sorted_key_array_insert_position` computes elsewhere, with
`std::lower_bound`. -/
def sortedInsertPosBaseline (node : KeyArray 16) (keyByte : UInt8) : Nat :=
  (node.byteArray.take node.childrenCount).findIdx fun a => ¬ a < keyByte

/-- `basic_inode_16::get_sorted_key_array_insert_position`, with the computation of the
architecture. -/
def getSortedKeyArrayInsertPosition (node : KeyArray 16) (keyByte : UInt8)
    (compute : KeyArray 16 → UInt8 → Nat) : Except Fault Nat := do
  assertThat (node.childrenCount < 16)
  assertThat ((node.byteArray.take node.childrenCount).Pairwise (· < ·))
  let result := compute node keyByte
  assertThat (result = node.childrenCount ∨
    (result < node.childrenCount ∧ node.key result ≠ keyByte))
  return result

/-! ## 3. What the searches find -/

/-- The index of the byte, or nothing if it is not among the keys. -/
def Finds (node : KeyArray capacity) (b : UInt8) (result : Option Nat) : Prop :=
  ∀ i, result = some i ↔ i < node.childrenCount ∧ node.byteArray[i]? = some b

/-- The number of keys below the byte. -/
def countBelow (node : KeyArray capacity) (b : UInt8) : Nat :=
  (node.byteArray.take node.childrenCount).countP (· < b)

section

variable {node : KeyArray capacity} {b : UInt8}

theorem byteArray_getElem? (node : KeyArray capacity) {i : Nat} (hi : i < capacity) :
    node.byteArray[i]? = some (node.key i) := by
  have hlt : i < node.byteArray.length := by rwa [node.length_eq]
  rw [key, List.getD_eq_getElem?_getD, List.getElem?_eq_getElem hlt, Option.getD_some]

theorem key_lt {i j : Nat} (hij : i < j) (hj : j < node.childrenCount) :
    node.key i < node.key j := by
  have hle := node.count_le
  have hlen := node.length_eq
  have hsorted := List.pairwise_iff_getElem.mp node.sorted i j (by simp; omega) (by simp; omega) hij
  rw [List.getElem_take, List.getElem_take] at hsorted
  rwa [key, key, List.getD_eq_getElem?_getD, List.getD_eq_getElem?_getD,
    List.getElem?_eq_getElem (by omega), List.getElem?_eq_getElem (by omega), Option.getD_some,
    Option.getD_some]

theorem finds_none (h : ∀ i < node.childrenCount, node.key i ≠ b) : node.Finds b none := by
  intro i
  constructor
  · rintro ⟨⟩
  · rintro ⟨hi, hb⟩
    rw [node.byteArray_getElem? (Nat.lt_of_lt_of_le hi node.count_le), Option.some_inj] at hb
    exact absurd hb (h i hi)

theorem finds_some {i : Nat} (hi : i < node.childrenCount) (hb : node.key i = b) :
    node.Finds b (some i) := by
  intro j
  constructor
  · rintro ⟨⟩
    exact ⟨hi, by rw [node.byteArray_getElem? (Nat.lt_of_lt_of_le hi node.count_le), hb]⟩
  · rintro ⟨hj, hbj⟩
    rw [node.byteArray_getElem? (Nat.lt_of_lt_of_le hj node.count_le), Option.some_inj] at hbj
    rcases Nat.lt_trichotomy i j with hlt | heq | hgt
    · have hkey := key_lt hlt hj
      rw [hb, hbj] at hkey
      exact absurd hkey (lt_irrefl b)
    · rw [heq]
    · have hkey := key_lt hgt hi
      rw [hb, hbj] at hkey
      exact absurd hkey (lt_irrefl b)

theorem lane_packed {n : Nat} {i : Nat} (hi : 8 * (i + 1) ≤ n) :
    lane 8 (node.packed n) i = (node.key i).toBitVec := lane_ofLanes _ hi

/-- What the searches compare is whether two bytes are equal. -/
theorem beq_toBitVec_iff {a b : UInt8} : (a.toBitVec == b.toBitVec) = true ↔ b = a := by
  rw [beq_iff_eq]
  constructor
  · intro h
    exact (UInt8.eq_of_toBitVec_eq h).symm
  · rintro rfl
    rfl

/-- A comparison with the keys, cut off after the last key. -/
theorem movemask_countMask {p : Nat → Bool} (hcount : node.childrenCount ≤ 16) :
    movemaskEpi8 (flags 128 8 16 p) &&& node.countMask = flags 32 1 node.childrenCount p := by
  rw [movemaskEpi8_flags (k := 1) rfl (by omega), countMask,
    flags_and_mask (m := node.childrenCount) (by omega) (by omega), min_eq_right hcount]

/-- The flags of the search say where the byte is. -/
theorem searched_flag {reg : BitVec 128} {i : Nat} (hi : i < 16)
    (hreg : lane 8 reg i = (node.key i).toBitVec) :
    (lane 8 (setAll 128 b.toBitVec) i == lane 8 reg i) = true ↔ node.key i = b := by
  rw [lane_setAll _ (by omega), hreg, beq_toBitVec_iff]

/-- The child index that a word of flags leads to. -/
theorem finds_of_flags {n w : Nat} {p : Nat → Bool} {r : Option Nat} (hw : 0 < w)
    (hn : node.childrenCount * w ≤ n)
    (hp : ∀ i < node.childrenCount, p i = true ↔ node.key i = b)
    (hzero : flags n w node.childrenCount p = 0 → r = none)
    (hset : flags n w node.childrenCount p ≠ 0 →
      r = some ((flags n w node.childrenCount p).ctz.toNat / w)) : node.Finds b r := by
  rcases flags_cases n p hw hn with ⟨h0, hnone⟩ | ⟨i, hi, hpi, -, hne, hctz⟩
  · rw [hzero h0]
    refine finds_none fun i hi heq => ?_
    have hfalse := hnone i hi
    rw [(hp i hi).mpr heq] at hfalse
    cases hfalse
  · rw [hset hne, hctz, Nat.mul_div_cancel i hw]
    exact finds_some hi ((hp i hi).mp hpi)

theorem findChildSse_finds {reg : BitVec 128} (hcount : node.childrenCount ≤ 16)
    (hreg : ∀ i < node.childrenCount, lane 8 reg i = (node.key i).toBitVec) :
    node.Finds b (node.findChildSse reg b) := by
  simp only [findChildSse]
  rw [cmpeq_eq_flags (c := 16) _ _ (by omega) (by omega), movemask_countMask hcount]
  refine finds_of_flags (n := 32) (w := 1) (by omega) (by omega)
    (fun i hi => searched_flag (by omega) (hreg i hi)) (fun hzero => ?_) fun hne => ?_
  · exact if_neg (not_not.mpr hzero)
  · rw [Nat.div_one]
    exact if_pos hne

/-! ## 4. Counting the keys below a byte -/

theorem countBelow_eq : node.countBelow b =
    (List.range node.childrenCount).countP fun i => node.key i < b := by
  have hle := node.count_le
  have hmap : node.byteArray.take node.childrenCount =
      (List.range node.childrenCount).map node.key := by
    apply List.ext_getElem?
    intro i
    rw [List.getElem?_take, List.getElem?_map]
    by_cases hi : i < node.childrenCount
    · rw [if_pos hi, node.byteArray_getElem? (by omega), List.getElem?_range hi, Option.map_some]
    · rw [if_neg hi, List.getElem?_eq_none (by simpa using hi), Option.map_none]
  rw [countBelow, hmap, List.countP_map]
  rfl

/-- The keys up to a position are below the byte, the others are not. -/
theorem countBelow_eq_of_split {pos : Nat} (hpos : pos ≤ node.childrenCount)
    (hbelow : ∀ i < pos, node.key i < b)
    (habove : ∀ i, pos ≤ i → i < node.childrenCount → ¬ node.key i < b) :
    node.countBelow b = pos := by
  obtain ⟨d, hd⟩ := Nat.exists_eq_add_of_le hpos
  have hcongr : (List.range node.childrenCount).countP (fun i => node.key i < b) =
      (List.range (pos + d)).countP fun i => decide (i < pos) && true := by
    rw [hd]
    apply List.countP_congr
    intro i hi
    have hlt := List.mem_range.mp hi
    by_cases hi : i < pos
    · simp [hi, hbelow i hi]
    · have hnot := habove i (by omega) (by omega)
      simpa [hi] using hnot
  rw [countBelow_eq, hcongr, countP_range_add]
  simp

/-- `_mm_cmple_epu8` compares lanes by the value of their bytes. -/
theorem cmpleEpu8_flag {x y : BitVec 128} {i : Nat} (hi : i < 16) :
    (lane 8 (maxU 8 y x) i == lane 8 y i) = true ↔ lane 8 x i ≤ lane 8 y i := by
  rw [beq_iff_eq, maxU, lane_ofLanes _ (by omega)]
  by_cases hle : lane 8 y i ≤ lane 8 x i
  · rw [if_pos hle]
    constructor
    · intro heq
      rw [heq]
      exact BitVec.le_refl _
    · intro hle'
      exact BitVec.le_antisymm hle' hle
  · rw [if_neg hle]
    have hlt := BitVec.not_le.mp hle
    exact ⟨fun _ => BitVec.le_of_lt hlt, fun _ => rfl⟩

end

section Four

variable {node : KeyArray 4} {b : UInt8}

theorem findChild4Sse_finds : node.Finds b (node.findChild4Sse b) := by
  have hle := node.count_le
  refine findChildSse_finds (by omega) fun i hi => ?_
  rw [lane_cvtsi32 _ (by omega), lane_packed (by omega)]

theorem findChild4Neon_finds : node.Finds b (node.findChild4Neon b) := by
  have hle := node.count_le
  simp only [findChild4Neon]
  rw [cmpeq_eq_flags (c := 16) _ _ (by omega) (by omega), getLow_flags,
    flags_and_mask (m := node.childrenCount) (by rw [Nat.shiftLeft_eq])
      (by rw [Nat.shiftLeft_eq]; omega), min_eq_right (by omega)]
  refine finds_of_flags (n := 64) (w := 8) (by omega) (by omega) (fun i hi => ?_)
    (fun hzero => if_pos hzero) fun hne => ?_
  · apply searched_flag (by omega)
    rw [lane_setLane_zero _ _ (by omega), lane_packed (by omega)]
  · rw [Nat.shiftRight_eq_div_pow]
    exact if_neg hne

/-! ## 5. The scalar search for a byte of a word -/

/-- Only the top bits of bytes are ever set. -/
theorem getLsbD_hasZeroByte (v : BitVec 32) {j : Nat} (hj : j < 32) :
    (hasZeroByte v).getLsbD j =
      ((v - 0x01010101#32).getLsbD j && !v.getLsbD j && decide (j % 8 = 7)) := by
  have hmask : ∀ k < 32, (0x80808080#32).getLsbD k = decide (k % 8 = 7) := by decide
  rw [hasZeroByte, BitVec.getLsbD_and, BitVec.getLsbD_and, BitVec.getLsbD_not, hmask j hj,
    decide_eq_true hj, Bool.true_and]

/-- Below the first zero byte nothing is borrowed from the bytes above, so that a byte there is
flagged if and only if it is zero. -/
theorem hasZeroByte_flag (v : BitVec 32) {i : Nat} (hi : i < 4)
    (hbelow : ∀ k < i, lane 8 v k ≠ 0) :
    (hasZeroByte v).getLsbD (8 * i + 7) = true ↔ lane 8 v i = 0 := by
  have hbyte : ∀ k, lane 8 v k = 0 ↔ v.toNat / 2 ^ (8 * k) % 2 ^ 8 = 0 := fun k => by
    rw [← toNat_lane, ← BitVec.toNat_inj]
    rfl
  have hV := v.isLt
  have hmod : (8 * i + 7) % 8 = 7 := by omega
  rw [getLsbD_hasZeroByte v (by omega), getLsbD_eq_decide, getLsbD_eq_decide, hbyte i,
    BitVec.toNat_sub, decide_eq_true hmod, Bool.and_true, Bool.and_eq_true, Bool.not_eq_true',
    decide_eq_true_iff, decide_eq_false_iff_not]
  have hbelow' : ∀ k < i, ¬ v.toNat / 2 ^ (8 * k) % 2 ^ 8 = 0 := fun k hk =>
    (hbyte k).not.mp (hbelow k hk)
  have h101 : (0x01010101#32).toNat = 0x01010101 := rfl
  rw [h101]
  interval_cases i
  · omega
  · have h0 := hbelow' 0 (by omega)
    omega
  · have h0 := hbelow' 0 (by omega)
    have h1 := hbelow' 1 (by omega)
    omega
  · have h0 := hbelow' 0 (by omega)
    have h1 := hbelow' 1 (by omega)
    have h2 := hbelow' 2 (by omega)
    omega

/-- The bits below the flag of a byte belong to bytes that are not flagged. -/
theorem hasZeroByte_below (v : BitVec 32) {i : Nat}
    (hbelow : ∀ k < i, lane 8 v k ≠ 0) {j : Nat} (hj : j < 8 * i + 7) :
    (hasZeroByte v).getLsbD j = false := by
  rcases Nat.lt_or_ge j 32 with hlt | hge
  · by_cases hmod : j % 8 = 7
    · have hk : j / 8 < i := by omega
      have hflag := (hasZeroByte_flag v (i := j / 8) (by omega)
        fun k hk' => hbelow k (by omega)).not.mpr (hbelow _ hk)
      rw [show 8 * (j / 8) + 7 = j by omega] at hflag
      exact Bool.eq_false_iff.mpr hflag
    · rw [getLsbD_hasZeroByte v hlt]
      simp [hmod]
  · exact BitVec.getLsbD_of_ge _ _ hge

theorem lane_replicated (b : UInt8) {i : Nat} (hi : i < 4) :
    lane 8 (0x01010101#32 * b.toBitVec.setWidth 32) i = b.toBitVec := by
  apply BitVec.eq_of_toNat_eq
  have hb := b.toBitVec.isLt
  have hprod : (0x01010101#32 * b.toBitVec.setWidth 32).toNat = 0x01010101 * b.toBitVec.toNat := by
    rw [BitVec.toNat_mul, BitVec.toNat_setWidth, BitVec.toNat_ofNat]
    omega
  rw [toNat_lane, hprod]
  generalize b.toBitVec.toNat = a at hb
  -- The byte stands at each of the four places.
  obtain ⟨z, hz⟩ : ∃ z, z = a + 256 * a := ⟨_, rfl⟩
  obtain ⟨y, hy⟩ : ∃ y, y = a + 256 * z := ⟨_, rfl⟩
  rw [show 0x01010101 * a = a + 256 * y by omega]
  clear hprod
  interval_cases i
  · omega
  · have hdiv : (a + 256 * y) / 2 ^ (8 * 1) = y := by omega
    omega
  · have hdiv : (a + 256 * y) / 2 ^ (8 * 2) = z := by omega
    omega
  · have hdiv : (a + 256 * y) / 2 ^ (8 * 3) = a := by omega
    omega

/-- The index of the first zero byte of a word, unless it lies past the keys. -/
theorem finds_of_hasZeroByte {v : BitVec 32} (hv : ∀ i < 4, lane 8 v i = 0 ↔ node.key i = b) :
    node.Finds b (if hasZeroByte v = 0 then none
      else if node.childrenCount ≤ (hasZeroByte v).ctz.toNat >>> 3 then none
      else some ((hasZeroByte v).ctz.toNat >>> 3)) := by
  have hle := node.count_le
  by_cases h : ∃ i, i < 4 ∧ node.key i = b
  · obtain ⟨hi, hkey⟩ := Nat.find_spec h
    have hbelow : ∀ k < Nat.find h, node.key k ≠ b := fun k hk heq =>
      Nat.find_min h hk ⟨by omega, heq⟩
    generalize Nat.find h = i at hi hkey hbelow
    have hzero : ∀ k < i, lane 8 v k ≠ 0 := fun k hk => (hv k (by omega)).not.mpr (hbelow k hk)
    have hflag := (hasZeroByte_flag v hi hzero).mpr ((hv i hi).mpr hkey)
    have hctz := ctz_toNat_eq hflag fun j hj => hasZeroByte_below v hzero hj
    have hne : hasZeroByte v ≠ 0 := by
      intro h0
      rw [h0] at hflag
      simp at hflag
    have hshift : (8 * i + 7) >>> 3 = i := by
      rw [Nat.shiftRight_eq_div_pow]
      omega
    rw [if_neg hne, hctz, hshift]
    by_cases hcount : node.childrenCount ≤ i
    · rw [if_pos hcount]
      exact finds_none fun k hk => hbelow k (by omega)
    · rw [if_neg hcount]
      exact finds_some (by omega) hkey
  · have hnone : ∀ k < 4, node.key k ≠ b := fun k hk heq => h ⟨k, hk, heq⟩
    have hzero : hasZeroByte v = 0 := by
      apply BitVec.eq_of_getLsbD_eq
      intro j hj
      rw [hasZeroByte_below v (i := 4) (fun k hk => (hv k hk).not.mpr (hnone k hk)) (by omega)]
      exact BitVec.getLsbD_zero.symm
    rw [if_pos hzero]
    exact finds_none fun k hk => hnone k (by omega)

theorem findChild4Scalar_finds : node.Finds b (node.findChild4Scalar b) := by
  refine finds_of_hasZeroByte fun i hi => ?_
  rw [lane_xor, lane_packed (by omega), lane_replicated b hi]
  refine BitVec.xor_eq_zero_iff.trans ?_
  exact ⟨UInt8.eq_of_toBitVec_eq, fun h => congrArg _ h⟩

/-! ## 6. The insert positions of `basic_inode_4` -/

theorem getInsertPos_eq (habsent : ∀ i < node.childrenCount, node.key i ≠ b) :
    node.getInsertPos b node.countMask = .ok (node.countBelow b) := by
  have hle := node.count_le
  have hpop : popcount (movemaskEpi8 (cmpleEpu8 (cvtsi32 (node.packed 32))
      (setAll 128 b.toBitVec)) &&& node.countMask) = node.countBelow b := by
    rw [cmpleEpu8, cmpeq_eq_flags (c := 16) _ _ (by omega) (by omega),
      movemask_countMask (by omega), popcount_flags (by omega), countBelow_eq]
    apply List.countP_congr
    intro i hi
    have hlt := List.mem_range.mp hi
    rw [cmpleEpu8_flag (by omega), lane_setAll _ (by omega), lane_cvtsi32 _ (by omega),
      lane_packed (by omega), decide_eq_true_iff]
    change node.key i ≤ b ↔ _
    exact le_iff_lt_or_eq.trans (or_iff_left (habsent i hlt))
  unfold getInsertPos
  rw [assertThat_pos rfl]
  exact congrArg Except.ok hpop

/-- A full node has all four bits of the mask. -/
theorem countMask_of_full (hfull : node.childrenCount = 4) : node.countMask = 0xF#32 := by
  rw [countMask, hfull]
  rfl

theorem keyLt_eq {i : Nat} (hi : i < 4) :
    node.keyLt b i = if node.key i < b then 1 else 0 := by
  have hlt : (node.packed 32 >>> (8 * i)) &&& 0xFF#32 < b.toBitVec.setWidth 32 ↔
      node.key i < b := by
    have hkey : ((node.packed 32 >>> (8 * i)) &&& 0xFF#32).toNat = (node.key i).toNat := by
      rw [BitVec.toNat_and, BitVec.toNat_ushiftRight, Nat.shiftRight_eq_div_pow,
        show (0xFF#32).toNat = 2 ^ 8 - 1 from rfl, Nat.and_two_pow_sub_one_eq_mod, ← toNat_lane,
        lane_packed (by omega)]
      rfl
    have hb : (b.toBitVec.setWidth 32).toNat = b.toNat := by
      have hlt := b.toBitVec.isLt
      rw [BitVec.toNat_setWidth, Nat.mod_eq_of_lt (by omega)]
      rfl
    rw [BitVec.lt_def, hkey, hb]
    exact UInt8.lt_iff_toNat_lt.symm
  rw [keyLt]
  exact if_congr hlt rfl rfl

/-- The unused positions hold `unused_key_byte`, which is below no byte. -/
def Padded (node : KeyArray 4) : Prop := ∀ i < 4, node.childrenCount ≤ i → node.key i = 0xFF

theorem Padded.not_lt (h : node.Padded) {i : Nat} (hi : i < 4) (hcount : node.childrenCount ≤ i) :
    ¬ node.key i < b := by
  rw [h i hi hcount, UInt8.lt_iff_toNat_lt]
  have hb := b.toNat_lt
  have hff : (0xFF : UInt8).toNat = 255 := rfl
  omega

/-- Counting past the last key counts nothing more. -/
theorem countBelow_eq_of_padded (h : node.Padded) {m : Nat} (hm : m ≤ 4)
    (hcount : node.childrenCount ≤ m) :
    node.countBelow b = (List.range m).countP fun i => node.key i < b := by
  obtain ⟨d, rfl⟩ := Nat.exists_eq_add_of_le hcount
  rw [countBelow_eq, ← countP_range_add node.childrenCount d]
  apply List.countP_congr
  intro i hi
  have hlt := List.mem_range.mp hi
  by_cases hi : i < node.childrenCount
  · simp [hi]
  · simp [hi, h.not_lt (b := b) (i := i) (by omega) (by omega)]

theorem insertPosBaseline_eq (h : node.Padded) (hcount : node.childrenCount < 4) :
    node.insertPosBaseline b = node.countBelow b := by
  rw [countBelow_eq_of_padded h (m := 3) (by omega) (by omega), insertPosBaseline,
    keyLt_eq (by omega), keyLt_eq (by omega), keyLt_eq (by omega),
    show List.range 3 = [0, 1, 2] from rfl]
  simp only [List.countP_cons, List.countP_nil, decide_eq_true_iff]
  omega

theorem growPosBaseline_eq (hfull : node.childrenCount = 4) :
    node.growPosBaseline b = node.countBelow b := by
  rw [countBelow_eq_of_padded (fun i hi hcount => by omega) (m := 4) (by omega) (by omega),
    growPosBaseline, keyLt_eq (by omega), keyLt_eq (by omega), keyLt_eq (by omega),
    keyLt_eq (by omega), show List.range 4 = [0, 1, 2, 3] from rfl]
  simp only [List.countP_cons, List.countP_nil, decide_eq_true_iff]
  omega

end Four

section Sixteen

variable {node : KeyArray 16} {b : UInt8}

theorem findChild16Sse_finds : node.Finds b (node.findChild16Sse b) := by
  have hle := node.count_le
  exact findChildSse_finds hle fun i hi => lane_packed (by omega)

/-- The mask for the narrowed positions is all ones for a full node. -/
theorem narrowed_and_mask (p : Nat → Bool) :
    flags 64 4 16 p &&&
      (if node.childrenCount = 16 then 0xFFFFFFFFFFFFFFFF#64
        else (1#64 <<< (node.childrenCount <<< 2)) - 1#64) = flags 64 4 node.childrenCount p := by
  have hle := node.count_le
  by_cases hfull : node.childrenCount = 16
  · rw [if_pos hfull, hfull]
    exact BitVec.and_allOnes
  · rw [if_neg hfull, flags_and_mask (m := node.childrenCount)
      (by rw [Nat.shiftLeft_eq]) (by rw [Nat.shiftLeft_eq]; omega), min_eq_right hle]

theorem findChild16Neon_finds : node.Finds b (node.findChild16Neon b) := by
  have hle := node.count_le
  simp only [findChild16Neon]
  rw [cmpeq_eq_flags (c := 16) _ _ (by omega) (by omega), shrn_bytes_flags, narrowed_and_mask]
  refine finds_of_flags (n := 64) (w := 4) (by omega) (by omega) (fun i hi => ?_)
    (fun hzero => if_pos hzero) fun hne => ?_
  · exact searched_flag (by omega) (lane_packed (by omega))
  · rw [Nat.shiftRight_eq_div_pow]
    exact if_neg hne

theorem findChild16Scalar_finds : node.Finds b (node.findChild16Scalar b) := by
  unfold findChild16Scalar
  cases hfind : (List.range node.childrenCount).find? fun i => b == node.key i with
  | none =>
    refine finds_none fun i hi heq => ?_
    have hnone := List.find?_eq_none.mp hfind i (List.mem_range.mpr hi)
    simp [heq] at hnone
  | some i =>
    have hmem := List.mem_range.mp (List.mem_of_find?_eq_some hfind)
    have hkey := List.find?_some hfind
    exact finds_some hmem (beq_iff_eq.mp hkey).symm

/-! ## 7. The insert position of `basic_inode_16` -/

theorem sortedInsertPosSse_eq : node.sortedInsertPosSse b = node.countBelow b := by
  have hle := node.count_le
  simp only [sortedInsertPosSse]
  rw [cmpleEpu8, cmpeq_eq_flags (c := 16) _ _ (by omega) (by omega), movemask_countMask hle]
  obtain ⟨p, hpdef⟩ : ∃ p : Nat → Bool, p = fun i => lane 8 (maxU 8 (node.packed 128)
    (setAll 128 b.toBitVec)) i == lane 8 (node.packed 128) i := ⟨_, rfl⟩
  rw [← hpdef]
  have hp : ∀ i < node.childrenCount, p i = false ↔ node.key i < b := by
    intro i hi
    rw [hpdef, ← Bool.not_eq_true, cmpleEpu8_flag (by omega), lane_setAll _ (by omega),
      lane_packed (by omega), BitVec.not_le]
    rfl
  rcases flags_cases 32 p (w := 1) (c := node.childrenCount) (by omega) (by omega) with
    ⟨hzero, hnone⟩ | ⟨i, hi, hpi, hbelow, hne, hctz⟩
  · -- All keys are below the byte.
    rw [if_neg (not_not.mpr hzero)]
    refine (countBelow_eq_of_split le_rfl (fun i hi => ?_) fun i hge hi => by omega).symm
    exact (hp i hi).mp (hnone i hi)
  · -- The flag of the first key that is not below the byte is the first one.
    rw [if_pos hne, hctz, Nat.mul_one]
    have hnot : ¬ node.key i < b := fun hib => by
      rw [(hp i hi).mpr hib] at hpi
      cases hpi
    refine (countBelow_eq_of_split (by omega) (fun k hk => ?_) fun k hge hk => ?_).symm
    · exact (hp k (by omega)).mp (hbelow k hk)
    · rcases Nat.lt_or_eq_of_le hge with hlt | rfl
      · exact fun hkb => hnot (lt_trans (key_lt hlt hk) hkb)
      · exact hnot

theorem sortedInsertPosBaseline_eq : node.sortedInsertPosBaseline b = node.countBelow b := by
  have hle := node.count_le
  have hlen : (node.byteArray.take node.childrenCount).length = node.childrenCount := by
    rw [List.length_take, node.length_eq]
    exact min_eq_left hle
  have hkey : ∀ i (hi : i < (node.byteArray.take node.childrenCount).length),
      (node.byteArray.take node.childrenCount)[i] = node.key i := by
    intro i hi
    have hget := node.byteArray_getElem? (i := i) (by omega)
    rw [List.getElem_take]
    exact List.getElem_eq_iff _ |>.mpr hget
  refine (countBelow_eq_of_split ?_ (fun i hi => ?_) fun i hge hi => ?_).symm
  · exact Nat.le_trans List.findIdx_le_length (by rw [hlen])
  · have hlt : i < (node.byteArray.take node.childrenCount).length :=
      Nat.lt_of_lt_of_le hi List.findIdx_le_length
    have hnot := List.not_of_lt_findIdx hi
    rw [hkey i hlt] at hnot
    simpa using hnot
  · have hlt : node.sortedInsertPosBaseline b < (node.byteArray.take node.childrenCount).length :=
      by omega
    have hfirst : decide (¬ (node.byteArray.take node.childrenCount)[
        node.sortedInsertPosBaseline b] < b) = true := List.findIdx_getElem (w := hlt)
    rw [hkey _ hlt] at hfirst
    have hnot : ¬ node.key (node.sortedInsertPosBaseline b) < b := by simpa using hfirst
    rcases Nat.lt_or_eq_of_le hge with hgt | heq
    · exact fun hkb => hnot (lt_trans (key_lt hgt hi) hkb)
    · rwa [← heq]

/-- The position is returned, past all assertions. -/
theorem getSortedKeyArrayInsertPosition_eq {compute : KeyArray 16 → UInt8 → Nat}
    (hcompute : compute node b = node.countBelow b) (hcount : node.childrenCount < 16)
    (habsent : ∀ i < node.childrenCount, node.key i ≠ b) :
    node.getSortedKeyArrayInsertPosition b compute = .ok (node.countBelow b) := by
  have hpos : node.countBelow b ≤ node.childrenCount := by
    rw [countBelow_eq]
    exact Nat.le_trans List.countP_le_length (by rw [List.length_range])
  have hend : node.countBelow b = node.childrenCount ∨
      (node.countBelow b < node.childrenCount ∧ node.key (node.countBelow b) ≠ b) := by
    rcases Nat.lt_or_eq_of_le hpos with hlt | heq
    · exact Or.inr ⟨hlt, habsent _ hlt⟩
    · exact Or.inl heq
  unfold getSortedKeyArrayInsertPosition
  rw [assertThat_pos hcount, assertThat_pos node.sorted, hcompute]
  change (do assertThat (node.countBelow b = node.childrenCount ∨
    (node.countBelow b < node.childrenCount ∧ node.key (node.countBelow b) ≠ b))
             return node.countBelow b) = _
  rw [assertThat_pos hend]
  rfl

end Sixteen

end KeyArray

namespace KeyArray

/-! ## 8. The searches of the node model

`INode` has one search for each node type, which is the one of every architecture. -/

variable {capacity : Nat} {node : KeyArray capacity} {b : UInt8}

theorem Finds.unique {r r' : Option Nat} (h : node.Finds b r) (h' : node.Finds b r') : r = r' :=
  Option.ext fun i => (h i).trans (h' i).symm

theorem findKey_finds : node.Finds b (INode.findKey node.byteArray node.childrenCount b) := by
  have hle := node.count_le
  have hlen : (node.byteArray.take node.childrenCount).length = node.childrenCount := by
    rw [List.length_take, node.length_eq]
    exact min_eq_left hle
  have hget : ∀ i < node.childrenCount,
      (node.byteArray.take node.childrenCount)[i]? = some (node.key i) := by
    intro i hi
    rw [List.getElem?_take, if_pos hi, node.byteArray_getElem? (by omega)]
  unfold INode.findKey
  cases hfind : (node.byteArray.take node.childrenCount).findIdx? (· = b) with
  | none =>
    refine finds_none fun i hi heq => ?_
    have hmem : node.key i ∈ node.byteArray.take node.childrenCount :=
      List.mem_of_getElem? (hget i hi)
    have hnone := List.findIdx?_eq_none_iff.mp hfind _ hmem
    simp [heq] at hnone
  | some i =>
    obtain ⟨hi, hb, -⟩ := List.findIdx?_eq_some_iff_getElem.mp hfind
    have hi' : i < node.childrenCount := by omega
    have hkey := hget i hi'
    rw [List.getElem?_eq_getElem hi, Option.some_inj] at hkey
    rw [hkey, decide_eq_true_iff] at hb
    exact finds_some hi' hb

/-- The number of keys at or below an absent byte, which `INode` counts, is the number below it. -/
theorem getInsertPos_eq_countBelow (habsent : ∀ i < node.childrenCount, node.key i ≠ b) :
    INode.getInsertPos node.byteArray node.childrenCount b = node.countBelow b := by
  apply List.countP_congr
  intro a ha
  obtain ⟨i, hi, hget⟩ := List.mem_take_iff_getElem.mp ha
  have hi' : i < node.childrenCount := by omega
  have hle := node.count_le
  have hkey := node.byteArray_getElem? (i := i) (by omega)
  have hne : a ≠ b := by
    rw [List.getElem?_eq_getElem (by omega), Option.some_inj, hget] at hkey
    exact hkey ▸ habsent i hi'
  rw [decide_eq_true_iff, decide_eq_true_iff]
  exact le_iff_lt_or_eq.trans (or_iff_left hne)

theorem getSortedKeyArrayInsertPosition_eq_countBelow {node : KeyArray 16} :
    INode.getSortedKeyArrayInsertPosition node.byteArray node.childrenCount b =
      node.countBelow b := by
  rw [← sortedInsertPosBaseline_eq, INode.getSortedKeyArrayInsertPosition, sortedInsertPosBaseline]
  congr 1
  funext a
  exact decide_eq_decide.mpr not_lt.symm

end KeyArray

/-- The versions of the searches for the architectures agree. -/
theorem keySearches_agree (node4 : KeyArray 4) (node16 : KeyArray 16) (b : UInt8) :
    (node4.Finds b (node4.findChild4Sse b) ∧ node4.Finds b (node4.findChild4Neon b) ∧
      node4.Finds b (node4.findChild4Scalar b)) ∧
    (node16.Finds b (node16.findChild16Sse b) ∧ node16.Finds b (node16.findChild16Neon b) ∧
      node16.Finds b (node16.findChild16Scalar b)) ∧
    ((∀ i < node4.childrenCount, node4.key i ≠ b) →
      node4.getInsertPos b node4.countMask = .ok (node4.countBelow b) ∧
      (node4.childrenCount < 4 → node4.Padded →
        node4.insertPosBaseline b = node4.countBelow b) ∧
      (node4.childrenCount = 4 → node4.getInsertPos b 0xF = .ok (node4.countBelow b) ∧
        node4.growPosBaseline b = node4.countBelow b)) ∧
    ((∀ i < node16.childrenCount, node16.key i ≠ b) → node16.childrenCount < 16 →
      node16.getSortedKeyArrayInsertPosition b KeyArray.sortedInsertPosSse =
        .ok (node16.countBelow b) ∧
      node16.getSortedKeyArrayInsertPosition b KeyArray.sortedInsertPosBaseline =
        .ok (node16.countBelow b)) := by
  refine ⟨⟨KeyArray.findChild4Sse_finds, KeyArray.findChild4Neon_finds,
    KeyArray.findChild4Scalar_finds⟩, ⟨KeyArray.findChild16Sse_finds,
    KeyArray.findChild16Neon_finds, KeyArray.findChild16Scalar_finds⟩, fun habsent => ?_,
    fun habsent hcount => ?_⟩
  · refine ⟨KeyArray.getInsertPos_eq habsent,
      fun hcount hpadded => KeyArray.insertPosBaseline_eq hpadded hcount, fun hfull => ?_⟩
    have hpos := KeyArray.getInsertPos_eq habsent
    rw [KeyArray.countMask_of_full hfull] at hpos
    exact ⟨hpos, KeyArray.growPosBaseline_eq hfull⟩
  · exact ⟨KeyArray.getSortedKeyArrayInsertPosition_eq KeyArray.sortedInsertPosSse_eq hcount
      habsent, KeyArray.getSortedKeyArrayInsertPosition_eq KeyArray.sortedInsertPosBaseline_eq
      hcount habsent⟩

/-- A byte between the two keys of a node, and one between the fifth and the sixth of the other. -/
theorem keySearches_agree_between :
    ∃ (node4 : KeyArray 4) (node16 : KeyArray 16),
      node4.insertPosBaseline 15 = node4.countBelow 15 ∧
      node16.getSortedKeyArrayInsertPosition 45 KeyArray.sortedInsertPosSse =
        .ok (node16.countBelow 45) := by
  let node4 : KeyArray 4 := ⟨[10, 20, 0xFF, 0xFF], 2, rfl, by decide, by decide⟩
  let node16 : KeyArray 16 := ⟨[0, 10, 20, 30, 40, 50, 1, 2, 3, 4, 5, 6, 7, 8, 9, 11], 6, rfl,
    by decide, by decide⟩
  refine ⟨node4, node16, ?_, ?_⟩
  · exact ((keySearches_agree node4 node16 15).2.2.1 (by decide)).2.1 (by decide)
      (by unfold KeyArray.Padded; decide)
  · exact ((keySearches_agree node4 node16 45).2.2.2 (by decide) (by decide)).1

end Unodb
