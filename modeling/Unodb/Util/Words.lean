import Mathlib.Data.BitVec
import Mathlib.Data.FinEnum
import Mathlib.Data.List.Lex
import Mathlib.Data.UInt

/-!
# Bytes and 64-bit little-endian words

A machine word is read as its eight bytes, byte `0` lowest.  The lemmas say what the bitwise
operators do to the single bytes, and that counting the trailing zero bits of a clamped
difference gives the number of leading bytes two words share.
-/

namespace Words

/-- Bytes are ordered by their value. -/
instance byteOrder : LinearOrder UInt8 where
  le_refl := UInt8.le_refl
  le_trans _ _ _ := UInt8.le_trans
  le_antisymm _ _ := UInt8.le_antisymm
  le_total := UInt8.le_total
  lt_iff_le_not_ge a b := by
    simp only [UInt8.lt_iff_toNat_lt, UInt8.le_iff_toNat_le]
    omega
  toDecidableLE := inferInstance
  toDecidableLT := inferInstance
  toDecidableEq := inferInstance

/-- Byte `i` of a word, counted from the least significant one. -/
def wordByte (w : BitVec 64) (i : Nat) : UInt8 := UInt8.ofBitVec (w.extractLsb' (8 * i) 8)

theorem wordByte_getLsbD (w : BitVec 64) (i j : Nat) :
    (wordByte w i).toBitVec.getLsbD j = (decide (j < 8) && w.getLsbD (8 * i + j)) := by
  simp only [wordByte, BitVec.getLsbD_extractLsb']

theorem wordByte_eq_iff (w w' : BitVec 64) (i i' : Nat) :
    wordByte w i = wordByte w' i' ↔ ∀ j < 8, w.getLsbD (8 * i + j) = w'.getLsbD (8 * i' + j) := by
  constructor
  · intro h j hj
    have hbit := congrArg (fun b : UInt8 => b.toBitVec.getLsbD j) h
    simpa only [wordByte_getLsbD, hj, decide_true, Bool.true_and] using hbit
  · intro h
    apply UInt8.eq_of_toBitVec_eq
    apply BitVec.eq_of_getLsbD_eq
    intro j hj
    rw [wordByte_getLsbD, wordByte_getLsbD, h j hj]

/-- A word is determined by its eight bytes. -/
theorem word_ext {w w' : BitVec 64} (h : ∀ i < 8, wordByte w i = wordByte w' i) : w = w' := by
  apply BitVec.eq_of_getLsbD_eq
  intro j hj
  have hbyte := (wordByte_eq_iff w w' (j / 8) (j / 8)).mp (h (j / 8) (by omega)) (j % 8) (by omega)
  rwa [Nat.div_add_mod] at hbyte

theorem wordByte_of_ge (w : BitVec 64) {i : Nat} (hi : 8 ≤ i) : wordByte w i = 0 := by
  apply UInt8.eq_of_toBitVec_eq
  apply BitVec.eq_of_getLsbD_eq
  intro j hj
  rw [wordByte_getLsbD, BitVec.getLsbD_of_ge w _ (by omega)]
  simp

theorem wordByte_zero (i : Nat) : wordByte 0 i = 0 := by
  apply UInt8.eq_of_toBitVec_eq
  apply BitVec.eq_of_getLsbD_eq
  intro j hj
  simp [wordByte_getLsbD]

/-! ## 1. Bytes of bitwise combinations -/

theorem wordByte_or (w w' : BitVec 64) (i : Nat) :
    wordByte (w ||| w') i = wordByte w i ||| wordByte w' i := by
  apply UInt8.eq_of_toBitVec_eq
  apply BitVec.eq_of_getLsbD_eq
  intro j hj
  rw [UInt8.toBitVec_or, BitVec.getLsbD_or]
  simp only [wordByte_getLsbD, BitVec.getLsbD_or, hj, decide_true, Bool.true_and]

/-- Shifting right by whole bytes drops the low bytes. -/
theorem wordByte_ushiftRight (w : BitVec 64) (n i : Nat) :
    wordByte (w >>> (n * 8)) i = wordByte w (n + i) := by
  rw [wordByte_eq_iff]
  intro j hj
  rw [BitVec.getLsbD_ushiftRight]
  congr 1
  omega

/-- Shifting left by whole bytes moves byte `i` to byte `n + i`. -/
theorem wordByte_shiftLeft (w : BitVec 64) (n i : Nat) (hi : i < 8) :
    wordByte (w <<< (n * 8)) i = if i < n then 0 else wordByte w (i - n) := by
  by_cases hin : i < n
  · rw [if_pos hin, ← wordByte_zero i, wordByte_eq_iff]
    intro j hj
    have hlt : 8 * i + j < n * 8 := by omega
    rw [BitVec.getLsbD_shiftLeft]
    simp [hlt]
  · rw [if_neg hin, wordByte_eq_iff]
    intro j hj
    rw [BitVec.getLsbD_shiftLeft]
    have hlt : 8 * i + j < 64 := by omega
    have hge : ¬ 8 * i + j < n * 8 := by omega
    simp only [hlt, hge, decide_true, decide_false, Bool.not_false, Bool.true_and]
    congr 1
    omega

/-- The mask that keeps the lowest `n` bytes. -/
def lowMask (n : Nat) : BitVec 64 := BitVec.allOnes 64 >>> ((8 - n) * 8)

theorem lowMask_getLsbD (n j : Nat) (hn : n ≤ 8) : (lowMask n).getLsbD j = decide (j < n * 8) := by
  rw [lowMask, BitVec.getLsbD_ushiftRight, BitVec.getLsbD_allOnes]
  congr 1
  rw [eq_iff_iff]
  omega

theorem wordByte_and_lowMask (w : BitVec 64) (n i : Nat) (hn : n ≤ 8) :
    wordByte (w &&& lowMask n) i = if i < n then wordByte w i else 0 := by
  by_cases hin : i < n
  · rw [if_pos hin, wordByte_eq_iff]
    intro j hj
    have hlt : 8 * i + j < n * 8 := by omega
    rw [BitVec.getLsbD_and, lowMask_getLsbD n _ hn]
    simp only [hlt, decide_true, Bool.and_true]
  · rw [if_neg hin, ← wordByte_zero i, wordByte_eq_iff]
    intro j hj
    have hge : ¬ 8 * i + j < n * 8 := by omega
    rw [BitVec.getLsbD_and, lowMask_getLsbD n _ hn]
    simp [hge]

/-- A mask written as a power of two minus one. -/
theorem shiftLeft_one_sub_one (n : Nat) (hn : n < 8) :
    (1#64 <<< (n * 8)) - 1 = lowMask n := by
  revert hn
  revert n
  decide

/-- The word whose lowest byte is `b` and whose other bytes are zero. -/
def byteWord (b : UInt8) : BitVec 64 := b.toBitVec.setWidth 64

theorem wordByte_byteWord (b : UInt8) (i : Nat) :
    wordByte (byteWord b) i = if i = 0 then b else 0 := by
  apply UInt8.eq_of_toBitVec_eq
  apply BitVec.eq_of_getLsbD_eq
  intro j hj
  rw [wordByte_getLsbD, byteWord, BitVec.getLsbD_setWidth]
  by_cases hi : i = 0
  · subst hi
    have hlt : j < 64 := by omega
    simp [hj, hlt]
  · have hge : 8 ≤ 8 * i + j := by omega
    rw [BitVec.getLsbD_of_ge _ _ hge]
    simp [hi]

/-! ## 2. Shared leading bytes -/

/-- The number of equal low bytes of two words, capped at `clamp`: the trailing zero bits of the
    difference, with a bit set at the cap, divided by eight. -/
def sharedBytes (k1 k2 : BitVec 64) (clamp : Nat) : Nat :=
  (((k1 ^^^ k2) ||| (1#64 <<< (clamp * 8))).ctz).toNat >>> 3

section SharedBytes

variable (k1 k2 : BitVec 64) (clamp : Nat)

theorem clamped_getLsbD (j : Nat) (hj : j < 64) :
    ((k1 ^^^ k2) ||| (1#64 <<< (clamp * 8))).getLsbD j =
      ((k1.getLsbD j ^^ k2.getLsbD j) || decide (j = clamp * 8)) := by
  rw [BitVec.getLsbD_or, BitVec.getLsbD_xor, BitVec.getLsbD_shiftLeft, BitVec.getLsbD_one]
  congr 1
  simp only [hj, decide_true, Bool.true_and]
  rw [← decide_not, ← Bool.decide_and, ← Bool.decide_and]
  congr 1
  rw [eq_iff_iff]
  omega

theorem ctz_clamped_le (hclamp : clamp < 8) :
    (((k1 ^^^ k2) ||| (1#64 <<< (clamp * 8))).ctz).toNat ≤ clamp * 8 := by
  by_contra hgt
  have hzero := BitVec.getLsbD_false_of_lt_ctz (i := clamp * 8) (Nat.lt_of_not_le hgt)
  rw [clamped_getLsbD k1 k2 clamp _ (by omega)] at hzero
  simp at hzero

theorem sharedBytes_le (hclamp : clamp < 8) : sharedBytes k1 k2 clamp ≤ clamp := by
  have h := ctz_clamped_le k1 k2 clamp hclamp
  rw [sharedBytes, Nat.shiftRight_eq_div_pow]
  omega

theorem sharedBytes_eq (hclamp : clamp < 8) {i : Nat} (hi : i < sharedBytes k1 k2 clamp) :
    wordByte k1 i = wordByte k2 i := by
  rw [sharedBytes, Nat.shiftRight_eq_div_pow] at hi
  have hle := ctz_clamped_le k1 k2 clamp hclamp
  rw [wordByte_eq_iff]
  intro j hj
  have hzero := BitVec.getLsbD_false_of_lt_ctz (i := 8 * i + j)
    (x := (k1 ^^^ k2) ||| (1#64 <<< (clamp * 8))) (by omega)
  rw [clamped_getLsbD k1 k2 clamp _ (by omega)] at hzero
  simp only [Bool.or_eq_false_iff, bne_eq_false_iff_eq] at hzero
  exact hzero.1

theorem sharedBytes_ne (hclamp : clamp < 8) (hlt : sharedBytes k1 k2 clamp < clamp) :
    wordByte k1 (sharedBytes k1 k2 clamp) ≠ wordByte k2 (sharedBytes k1 k2 clamp) := by
  intro heq
  have hctz := ctz_clamped_le k1 k2 clamp hclamp
  have hne : (k1 ^^^ k2) ||| (1#64 <<< (clamp * 8)) ≠ 0#64 := by
    intro h0
    have hbit := clamped_getLsbD k1 k2 clamp (clamp * 8) (by omega)
    rw [h0] at hbit
    simp at hbit
  have hone := BitVec.getLsbD_true_ctz_of_ne_zero hne
  rw [clamped_getLsbD k1 k2 clamp _ (by omega)] at hone
  rw [sharedBytes, Nat.shiftRight_eq_div_pow] at heq hlt
  have hbits := (wordByte_eq_iff k1 k2 _ _).mp heq
    ((((k1 ^^^ k2) ||| (1#64 <<< (clamp * 8))).ctz).toNat % 8) (by omega)
  rw [show 2 ^ 3 = 8 from rfl] at hbits hlt
  rw [Nat.div_add_mod] at hbits
  rw [hbits, Bool.xor_self, Bool.false_or, decide_eq_true_eq] at hone
  omega

end SharedBytes

end Words
