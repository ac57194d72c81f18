import Unodb.Encode.Bytes

/-!
# Numbers as words

The word that a number is encoded as is ordered as the numbers are, and the number is found again
from it.
-/

open Endian

namespace Unodb

/-! ## 1. Signed integers -/

section Signed

variable {w : IntWidth}

theorem IntWidth.msb_toNat (w : IntWidth) : w.msb.toNat = 2 ^ (w.bits - 1) := by
  cases w <;> rfl

theorem IntWidth.half_add_half (w : IntWidth) : 2 ^ (w.bits - 1) + 2 ^ (w.bits - 1) = 2 ^ w.bits := by
  cases w <;> rfl

theorem encodeSigned_eq (v : BitVec w.bits) : encodeSigned v = w.msb + v := by
  unfold encodeSigned
  split
  · rfl
  · rw [BitVec.sub_eq_add_neg w.msb, BitVec.neg_neg, ← BitVec.add_assoc, BitVec.add_sub_cancel]

theorem encodeSigned_toNat (v : BitVec w.bits) :
    ((encodeSigned v).toNat : Int) = v.toInt + 2 ^ (w.bits - 1) := by
  have hhalf := w.half_add_half
  have hv := v.isLt
  rw [encodeSigned_eq, BitVec.toNat_add, w.msb_toNat, BitVec.toInt_eq_toNat_cond]
  have hcast : ((2 ^ (w.bits - 1) : Nat) : Int) = 2 ^ (w.bits - 1) := Nat.cast_pow 2 _
  rw [← hcast]
  generalize 2 ^ (w.bits - 1) = H at hhalf
  generalize 2 ^ w.bits = M at hhalf hv ⊢
  split
  · rw [Nat.mod_eq_of_lt (by omega)]
    omega
  · rw [Nat.mod_eq_sub_mod (by omega), Nat.mod_eq_of_lt (by omega)]
    omega

theorem decodeSigned_eq (u : BitVec w.bits) : decodeSigned u = u - w.msb := by
  have hnot : ~~~(w.msb - 1 - u) = u - w.msb := by
    rw [BitVec.not_eq_neg_add]
    change -(w.msb - 1 - u) - 1 = _
    ring
  unfold decodeSigned
  split
  · rfl
  · split
    · exact hnot
    · ring

theorem decodeSigned_encodeSigned (v : BitVec w.bits) : decodeSigned (encodeSigned v) = v := by
  rw [decodeSigned_eq, encodeSigned_eq]
  ring

theorem encodeSigned_decodeSigned (u : BitVec w.bits) : encodeSigned (decodeSigned u) = u := by
  rw [decodeSigned_eq, encodeSigned_eq]
  ring

end Signed

/-! ## 2. Floating-point numbers -/

section Floating

variable {w : IntWidth} {f : Ieee.Format} {x : BitVec w.bits}

/-- The top bit of a word. -/
theorem and_msb_eq_zero_iff (x : BitVec w.bits) : x &&& w.msb = 0 ↔ x.toNat < 2 ^ (w.bits - 1) := by
  have hpos : 0 < w.bits := by cases w <;> decide
  have hne : BitVec.twoPow w.bits (w.bits - 1) ≠ 0#w.bits := by
    intro h
    have h' := congrArg BitVec.toNat h
    rw [BitVec.toNat_twoPow_of_lt (by omega)] at h'
    exact absurd h' (Nat.ne_of_gt (Nat.two_pow_pos _))
  have hmsb : x.getLsbD (w.bits - 1) = decide (2 ^ (w.bits - 1) ≤ x.toNat) := by
    rw [← BitVec.msb_eq_getLsbD_last, BitVec.msb_eq_decide]
  rw [IntWidth.msb, ← BitVec.twoPow_eq, BitVec.and_twoPow, hmsb]
  by_cases hle : 2 ^ (w.bits - 1) ≤ x.toNat
  · rw [decide_eq_true hle, if_pos rfl]
    exact iff_of_false hne (by omega)
  · rw [decide_eq_false hle, if_neg Bool.false_ne_true]
    exact iff_of_true rfl (by omega)

theorem or_msb_toNat (hx : x.toNat < 2 ^ (w.bits - 1)) :
    (x ||| w.msb).toNat = x.toNat + 2 ^ (w.bits - 1) := by
  have h := Nat.two_pow_add_eq_or_of_lt hx 1
  rw [Nat.mul_one] at h
  rw [BitVec.toNat_or, w.msb_toNat, Nat.or_comm, ← h, Nat.add_comm]

/-- Flipping a top bit that is set takes it away. -/
theorem xor_msb_toNat (hx : 2 ^ (w.bits - 1) ≤ x.toNat) :
    (x ^^^ w.msb).toNat = x.toNat - 2 ^ (w.bits - 1) := by
  have hhalf := w.half_add_half
  have hlt := x.isLt
  have hy : (x - w.msb).toNat = x.toNat - 2 ^ (w.bits - 1) := by
    rw [BitVec.toNat_sub_of_le (by rw [BitVec.le_def, w.msb_toNat]; exact hx), w.msb_toNat]
  have hylt : (x - w.msb).toNat < 2 ^ (w.bits - 1) := by omega
  have hor : (x - w.msb) ||| w.msb = x := by
    apply BitVec.eq_of_toNat_eq
    rw [or_msb_toNat hylt, hy]
    omega
  have hand := (and_msb_eq_zero_iff _).mpr hylt
  have hxor : x ^^^ w.msb = x - w.msb := by
    nth_rewrite 1 [← hor]
    apply BitVec.eq_of_getLsbD_eq
    intro i _
    have hbit : ((x - w.msb) &&& w.msb).getLsbD i = false := by
      rw [hand]
      exact BitVec.getLsbD_zero
    rw [BitVec.getLsbD_and] at hbit
    rw [BitVec.getLsbD_xor, BitVec.getLsbD_or]
    cases h1 : (x - w.msb).getLsbD i <;> cases h2 : w.msb.getLsbD i <;> simp_all
  rw [hxor, hy]

theorem one_toNat (w : IntWidth) : (1 : BitVec w.bits).toNat = 1 := by
  cases w <;> rfl

variable (hw : 2 * f.half = 2 ^ w.bits)
include hw

theorem half_eq_pow : f.half = 2 ^ (w.bits - 1) := by
  have := w.half_add_half
  omega

theorem encodeFloatingPoint_toNat (x : BitVec w.bits) :
    (encodeFloatingPoint f x).toNat = Ieee.sortKey f x.toNat := by
  have hhalf := half_eq_pow hw
  have hx := x.isLt
  have hpos : 0 < 2 ^ (w.bits - 1) := Nat.two_pow_pos _
  unfold encodeFloatingPoint Ieee.sortKey
  split
  · rw [BitVec.toNat_allOnes, hw]
  · split
    · cases hs : Ieee.signBit f x.toNat with
      | false =>
        rw [if_pos rfl, if_neg Bool.false_ne_true, BitVec.toNat_sub_of_le, BitVec.toNat_allOnes, hw]
        · rw [one_toNat]
          omega
        · rw [BitVec.le_def, BitVec.toNat_allOnes, one_toNat]
          omega
      | true => rfl
    · by_cases hlt : x.toNat < 2 ^ (w.bits - 1)
      · rw [if_pos ((and_msb_eq_zero_iff x).mpr hlt), or_msb_toNat hlt, Ieee.signBit,
          decide_eq_false (by omega), if_neg Bool.false_ne_true, hhalf]
      · rw [if_neg (mt (and_msb_eq_zero_iff x).mp hlt), BitVec.toNat_not, Ieee.signBit,
          decide_eq_true (by omega), if_pos rfl, hw]

theorem decodeFloatingPoint_toNat (u : BitVec w.bits) :
    (decodeFloatingPoint f u).toNat =
      Ieee.ofSortKey f (f.infinity + 2 ^ (f.fracBits - 1)) u.toNat := by
  have hhalf := half_eq_pow hw
  have hu := u.isLt
  have hpos : 0 < 2 ^ (w.bits - 1) := Nat.two_pow_pos _
  have hinf := Ieee.half_eq f
  have hQ := Ieee.two_le_fraction f
  have hfrac : 2 ^ (f.fracBits - 1) < 2 ^ f.fracBits := by
    have := f.frac_pos
    exact Nat.pow_lt_pow_right (by decide) (by omega)
  have hones : ∀ v : BitVec w.bits, v.toNat = 2 * f.half - 1 ↔ v = BitVec.allOnes w.bits := by
    intro v
    rw [← BitVec.toNat_inj, BitVec.toNat_allOnes, hw]
  have hpred : u.toNat = 2 * f.half - 2 ↔ u = BitVec.allOnes w.bits - 1 := by
    rw [← BitVec.toNat_inj, BitVec.toNat_sub_of_le, BitVec.toNat_allOnes, one_toNat, hw]
    · omega
    · rw [BitVec.le_def, BitVec.toNat_allOnes, one_toNat]
      omega
  have hzero : u.toNat = 0 ↔ u = 0 := by
    rw [← BitVec.toNat_inj]
    rfl
  unfold decodeFloatingPoint Ieee.ofSortKey
  simp only [← hones, ← hpred, ← hzero]
  split
  · rw [quietNaN, BitVec.toNat_ofNat, Nat.mod_eq_of_lt (by omega)]
  · split
    · rw [BitVec.toNat_ofNat, Nat.mod_eq_of_lt (by omega)]
    · split
      · rw [BitVec.toNat_ofNat, Nat.mod_eq_of_lt (by omega)]
      · by_cases hle : f.half ≤ u.toNat
        · rw [if_pos hle, if_pos (mt (and_msb_eq_zero_iff u).mp (by omega)),
            xor_msb_toNat (by omega), hhalf]
        · rw [if_neg hle, if_neg (not_not.mpr ((and_msb_eq_zero_iff u).mpr (by omega))),
            BitVec.toNat_not, hw]

theorem toNat_lt_half (x : BitVec w.bits) : x.toNat < 2 * f.half := by
  rw [hw]
  exact x.isLt

theorem encodeFloatingPoint_lt_iff (x y : BitVec w.bits) :
    Ieee.Before f x.toNat y.toNat ↔
      (encodeFloatingPoint f x).toNat < (encodeFloatingPoint f y).toNat := by
  rw [encodeFloatingPoint_toNat hw, encodeFloatingPoint_toNat hw,
    Ieee.sortKey_lt_iff (toNat_lt_half hw x) (toNat_lt_half hw y)]

theorem encodeFloatingPoint_eq_iff (x y : BitVec w.bits) :
    Ieee.Same f x.toNat y.toNat ↔
      (encodeFloatingPoint f x).toNat = (encodeFloatingPoint f y).toNat := by
  rw [encodeFloatingPoint_toNat hw, encodeFloatingPoint_toNat hw,
    Ieee.sortKey_eq_iff (toNat_lt_half hw x) (toNat_lt_half hw y)]

theorem isNaN_quietNaN : Ieee.isNaN f (quietNaN f : BitVec w.bits).toNat := by
  have hinf := Ieee.half_eq f
  have hfrac : 2 ^ (f.fracBits - 1) < 2 ^ f.fracBits := by
    have := f.frac_pos
    exact Nat.pow_lt_pow_right (by decide) (by omega)
  have hpos : 0 < 2 ^ (f.fracBits - 1) := Nat.two_pow_pos _
  rw [quietNaN, BitVec.toNat_ofNat, Nat.mod_eq_of_lt (by omega), Ieee.isNaN, Ieee.magnitude,
    Nat.mod_eq_of_lt (by omega), decide_eq_true_eq]
  omega

theorem decodeFloatingPoint_encodeFloatingPoint (x : BitVec w.bits) :
    decodeFloatingPoint f (encodeFloatingPoint f x) =
      if Ieee.isNaN f x.toNat then quietNaN f else x := by
  split
  · rename_i hnan
    rw [encodeFloatingPoint, if_pos hnan, decodeFloatingPoint, if_pos rfl]
  · rename_i hnan
    apply BitVec.eq_of_toNat_eq
    rw [decodeFloatingPoint_toNat hw, encodeFloatingPoint_toNat hw,
      Ieee.ofSortKey_sortKey _ (toNat_lt_half hw x) hnan]

/-- A sort key that is made is made again from what it is decoded to. -/
theorem encodeFloatingPoint_decodeFloatingPoint (x : BitVec w.bits) :
    encodeFloatingPoint f (decodeFloatingPoint f (encodeFloatingPoint f x)) =
      encodeFloatingPoint f x := by
  rw [decodeFloatingPoint_encodeFloatingPoint hw]
  split
  · rename_i hnan
    rw [encodeFloatingPoint, encodeFloatingPoint, if_pos (isNaN_quietNaN hw), if_pos hnan]
  · rfl

end Floating

/-! ## 3. Numbers -/

theorem singleFormat_half : 2 * singleFormat.half = 2 ^ IntWidth.b32.bits := rfl

theorem doubleFormat_half : 2 * doubleFormat.half = 2 ^ IntWidth.b64.bits := rfl

namespace Number

/-- The order of numbers of one type. -/
def Lt (a b : Number) : Prop :=
  match a.type with
  | .unsigned _ => a.bits.toNat < b.bits.toNat
  | .signed _ => a.bits.toInt < b.bits.toInt
  | .float => Ieee.Before singleFormat a.bits.toNat b.bits.toNat
  | .double => Ieee.Before doubleFormat a.bits.toNat b.bits.toNat

/-- Numbers of one type that no order tells apart. -/
def Eqv (a b : Number) : Prop :=
  match a.type with
  | .unsigned _ | .signed _ => a.bits.toNat = b.bits.toNat
  | .float => Ieee.Same singleFormat a.bits.toNat b.bits.toNat
  | .double => Ieee.Same doubleFormat a.bits.toNat b.bits.toNat

/-- The word of a number in the key. -/
def key (n : Number) : Nat := (encodeWord n.type n.bits).toNat

variable {a b : Number}

theorem lt_iff (htype : a.type = b.type) : a.Lt b ↔ a.key < b.key := by
  obtain ⟨type, v⟩ := a
  obtain ⟨type', v'⟩ := b
  cases htype
  cases type with
  | unsigned w => exact Iff.rfl
  | signed w =>
    have h := encodeSigned_toNat v
    have h' := encodeSigned_toNat v'
    change v.toInt < v'.toInt ↔ (encodeSigned v).toNat < (encodeSigned v').toNat
    omega
  | float => exact encodeFloatingPoint_lt_iff singleFormat_half v v'
  | double => exact encodeFloatingPoint_lt_iff doubleFormat_half v v'

theorem eqv_iff (htype : a.type = b.type) : a.Eqv b ↔ a.key = b.key := by
  obtain ⟨type, v⟩ := a
  obtain ⟨type', v'⟩ := b
  cases htype
  cases type with
  | unsigned w => exact Iff.rfl
  | signed w =>
    change v.toNat = v'.toNat ↔ (encodeSigned v).toNat = (encodeSigned v').toNat
    rw [BitVec.toNat_inj, BitVec.toNat_inj]
    constructor
    · exact fun h => by rw [h]
    · intro h
      rw [← decodeSigned_encodeSigned v, h, decodeSigned_encodeSigned]
  | float => exact encodeFloatingPoint_eq_iff singleFormat_half v v'
  | double => exact encodeFloatingPoint_eq_iff doubleFormat_half v v'

/-- A number with the canonical pattern if it is not one. -/
def canonical : Number → Number
  | ⟨.float, v⟩ => ⟨.float, if Ieee.isNaN singleFormat v.toNat then quietNaN singleFormat else v⟩
  | ⟨.double, v⟩ => ⟨.double, if Ieee.isNaN doubleFormat v.toNat then quietNaN doubleFormat else v⟩
  | n => n

end Number

/-- A number is found again from its word. -/
theorem decodeWord_encodeWord (n : Number) :
    (⟨n.type, decodeWord n.type (encodeWord n.type n.bits)⟩ : Number) = n.canonical := by
  obtain ⟨type, v⟩ := n
  cases type with
  | unsigned w => rfl
  | signed w => exact congrArg (Number.mk (.signed w)) (decodeSigned_encodeSigned v)
  | float =>
    exact congrArg (Number.mk .float) (decodeFloatingPoint_encodeFloatingPoint singleFormat_half v)
  | double =>
    exact congrArg (Number.mk .double) (decodeFloatingPoint_encodeFloatingPoint doubleFormat_half v)

/-- An integer is found again from the number it is decoded to. -/
theorem encodeWord_decodeWord {type : NumType} (h : type ≠ .float ∧ type ≠ .double)
    (u : BitVec type.word.bits) : encodeWord type (decodeWord type u) = u := by
  cases type with
  | unsigned w => rfl
  | signed w => exact encodeSigned_decodeSigned u
  | float => exact absurd rfl h.1
  | double => exact absurd rfl h.2

/-- A word that is made is made again from what it is decoded to. -/
theorem encodeWord_decodeWord_encodeWord (n : Number) :
    encodeWord n.type (decodeWord n.type (encodeWord n.type n.bits)) = encodeWord n.type n.bits := by
  obtain ⟨type, v⟩ := n
  cases type with
  | unsigned w => rfl
  | signed w => exact encodeSigned_decodeSigned _
  | float => exact encodeFloatingPoint_decodeFloatingPoint singleFormat_half v
  | double => exact encodeFloatingPoint_decodeFloatingPoint doubleFormat_half v

/-! ## 4. Sort keys -/

/-- What the sort keys of two patterns promise. -/
structure SortKeyLaw {w : IntWidth} (f : Ieee.Format) (x y : BitVec w.bits) : Prop where
  order : ¬ Ieee.isNaN f x.toNat → ¬ Ieee.isNaN f y.toNat →
    (encodeFloatingPoint f x < encodeFloatingPoint f y ↔ Ieee.Before f x.toNat y.toNat)
  nan : Ieee.isNaN f x.toNat → encodeFloatingPoint f x = BitVec.allOnes w.bits
  below_nan : ¬ Ieee.isNaN f x.toNat → encodeFloatingPoint f x < BitVec.allOnes w.bits
  decode : ¬ Ieee.isNaN f x.toNat → decodeFloatingPoint f (encodeFloatingPoint f x) = x
  decode_nan : Ieee.isNaN f x.toNat → decodeFloatingPoint f (encodeFloatingPoint f x) = quietNaN f
  finite : ¬ Ieee.isNaN f x.toNat → ¬ Ieee.isInf f x.toNat →
    encodeFloatingPoint f x ≠ 0 ∧ encodeFloatingPoint f x ≠ BitVec.allOnes w.bits - 1 ∧
      encodeFloatingPoint f x ≠ BitVec.allOnes w.bits

section

variable {w : IntWidth} {f : Ieee.Format}

theorem SortKeyLaw.of_width (hw : 2 * f.half = 2 ^ w.bits) (x y : BitVec w.bits) :
    SortKeyLaw f x y where
  order _ _ := by
    rw [BitVec.lt_def]
    exact (encodeFloatingPoint_lt_iff hw x y).symm
  nan hnan := by rw [encodeFloatingPoint, if_pos hnan]
  below_nan hnan := by
    have hne := Ieee.sortKey_of_not_isNaN (toNat_lt_half hw x) hnan
    have hlt := Ieee.sortKey_lt f (toNat_lt_half hw x)
    rw [BitVec.lt_def, encodeFloatingPoint_toNat hw, BitVec.toNat_allOnes, ← hw]
    omega
  decode hnan := by rw [decodeFloatingPoint_encodeFloatingPoint hw, if_neg hnan]
  decode_nan hnan := by rw [decodeFloatingPoint_encodeFloatingPoint hw, if_pos hnan]
  finite hnan hinf := by
    obtain ⟨hlow, hhigh⟩ := Ieee.sortKey_of_finite (toNat_lt_half hw x) hnan hinf
    rw [← encodeFloatingPoint_toNat hw] at hlow hhigh
    have hpos : 0 < 2 ^ (w.bits - 1) := Nat.two_pow_pos _
    have hhalf := w.half_add_half
    refine ⟨fun h => ?_, fun h => ?_, fun h => ?_⟩
    · rw [h] at hlow
      exact absurd hlow (Nat.lt_irrefl 0)
    · rw [h, BitVec.toNat_sub_of_le, BitVec.toNat_allOnes, one_toNat, hw] at hhigh
      · omega
      · rw [BitVec.le_def, BitVec.toNat_allOnes, one_toNat]
        omega
    · rw [h, BitVec.toNat_allOnes, hw] at hhigh
      omega

/-- Sort keys of floating-point numbers are ordered as the numbers, and lead back to them. -/
theorem encodeFloatingPoint_sortKeyLaw :
    (∀ x y : BitVec IntWidth.b32.bits, SortKeyLaw singleFormat x y) ∧
      ∀ x y : BitVec IntWidth.b64.bits, SortKeyLaw doubleFormat x y :=
  ⟨SortKeyLaw.of_width singleFormat_half, SortKeyLaw.of_width doubleFormat_half⟩

end

end Unodb
