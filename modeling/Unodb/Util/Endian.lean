import Unodb.Util.Precede
import Unodb.Util.Words

/-!
# Bytes of numbers

Little- and big-endian digits of a number in base 256.  Big-endian strings of one length are
ordered as the numbers they spell.
-/

namespace Endian

/-- The lowest `n` bytes of a number, lowest first. -/
def leBytes : Nat → Nat → List UInt8
  | 0, _ => []
  | n + 1, v => UInt8.ofNat (v % 256) :: leBytes n (v / 256)

/-- The number with the given bytes, lowest first. -/
def ofLeBytes : List UInt8 → Nat
  | [] => 0
  | b :: bs => b.toNat + 256 * ofLeBytes bs

/-- The lowest `n` bytes of a number, highest first. -/
def beBytes (n v : Nat) : List UInt8 := (leBytes n v).reverse

/-- The number with the bytes of an `n`-byte number in the opposite order. -/
def bswap (n v : Nat) : Nat := ofLeBytes (leBytes n v).reverse

theorem toNat_lowByte (v : Nat) : (UInt8.ofNat (v % 256)).toNat = v % 256 := by
  rw [UInt8.toNat_ofNat']
  exact Nat.mod_mod _ _

theorem leBytes_length (n v : Nat) : (leBytes n v).length = n := by
  induction n generalizing v with
  | zero => rfl
  | succ n ih => rw [leBytes, List.length_cons, ih]

theorem beBytes_length (n v : Nat) : (beBytes n v).length = n := by
  rw [beBytes, List.length_reverse, leBytes_length]

theorem ofLeBytes_lt (bs : List UInt8) : ofLeBytes bs < 256 ^ bs.length := by
  induction bs with
  | nil => decide
  | cons b bs ih =>
    have hb := b.toNat_lt
    rw [ofLeBytes, List.length_cons, pow_succ]
    omega

theorem leBytes_ofLeBytes (bs : List UInt8) : leBytes bs.length (ofLeBytes bs) = bs := by
  induction bs with
  | nil => rfl
  | cons b bs ih =>
    have hb := b.toNat_lt
    rw [List.length_cons, leBytes, ofLeBytes]
    have hmod : (b.toNat + 256 * ofLeBytes bs) % 256 = b.toNat := by omega
    have hdiv : (b.toNat + 256 * ofLeBytes bs) / 256 = ofLeBytes bs := by omega
    rw [hmod, hdiv, ih, UInt8.ofNat_toNat]

theorem ofLeBytes_leBytes {n v : Nat} (hv : v < 256 ^ n) : ofLeBytes (leBytes n v) = v := by
  induction n generalizing v with
  | zero =>
    rw [pow_zero] at hv
    change 0 = v
    omega
  | succ n ih =>
    rw [pow_succ] at hv
    rw [leBytes, ofLeBytes, ih (by omega), toNat_lowByte]
    omega

/-- What memory holds of a byte-swapped number. -/
theorem leBytes_bswap (n v : Nat) : leBytes n (bswap n v) = beBytes n v := by
  have h := leBytes_ofLeBytes (leBytes n v).reverse
  rwa [List.length_reverse, leBytes_length] at h

theorem bswap_lt (n v : Nat) : bswap n v < 256 ^ n := by
  have h := ofLeBytes_lt (leBytes n v).reverse
  rwa [List.length_reverse, leBytes_length] at h

/-- The number read from big-endian bytes. -/
theorem bswap_ofLeBytes_beBytes {n v : Nat} (hv : v < 256 ^ n) :
    bswap n (ofLeBytes (beBytes n v)) = v := by
  have h := leBytes_ofLeBytes (beBytes n v)
  rw [beBytes_length] at h
  rw [bswap, h, beBytes, List.reverse_reverse, ofLeBytes_leBytes hv]

/-- Big-endian bytes read as a number and written again. -/
theorem beBytes_bswap_ofLeBytes (bs : List UInt8) :
    beBytes bs.length (bswap bs.length (ofLeBytes bs)) = bs := by
  have h := leBytes_bswap bs.length (ofLeBytes bs)
  rw [beBytes, h, beBytes, List.reverse_reverse, leBytes_ofLeBytes]

theorem beBytes_inj {n v w : Nat} (hv : v < 256 ^ n) (hw : w < 256 ^ n)
    (h : beBytes n v = beBytes n w) : v = w := by
  rw [← bswap_ofLeBytes_beBytes hv, h, bswap_ofLeBytes_beBytes hw]

theorem beBytes_succ (n v : Nat) : beBytes (n + 1) v = beBytes n (v / 256) ++ [UInt8.ofNat (v % 256)] := by
  rw [beBytes, leBytes, List.reverse_cons]
  rfl

/-- The smaller number has the smaller bytes. -/
theorem beBytes_precedes {n v w : Nat} (hv : v < 256 ^ n) (hw : w < 256 ^ n) (h : v < w) :
    Precedes (· < ·) (beBytes n v) (beBytes n w) := by
  induction n generalizing v w with
  | zero =>
    rw [pow_zero] at hw
    omega
  | succ n ih =>
    rw [pow_succ] at hv hw
    rw [beBytes_succ, beBytes_succ]
    by_cases hdiv : v / 256 < w / 256
    · exact (ih (by omega) (by omega) hdiv).append _ _
    · -- The higher bytes agree, so the lowest ones decide.
      have heq : v / 256 = w / 256 := by omega
      rw [heq]
      refine Precedes.of_fork ?_ (List.prefix_rfl) (List.prefix_rfl)
      rw [UInt8.lt_iff_toNat_lt, toNat_lowByte, toNat_lowByte]
      omega

theorem beBytes_precedes_iff {n v w : Nat} (hv : v < 256 ^ n) (hw : w < 256 ^ n) :
    Precedes (· < ·) (beBytes n v) (beBytes n w) ↔ v < w := by
  refine ⟨fun h => ?_, beBytes_precedes hv hw⟩
  have hirr : ∀ a : UInt8, ¬ a < a := fun a => lt_irrefl a
  rcases Nat.lt_trichotomy v w with hlt | heq | hgt
  · exact hlt
  · rw [heq] at h
    exact absurd List.prefix_rfl (h.not_isPrefix hirr)
  · have htrans : ∀ a b c : UInt8, a < b → b < c → a < c := fun _ _ _ hab hbc => lt_trans hab hbc
    have h' := h.trans htrans (beBytes_precedes hw hv hgt)
    exact absurd List.prefix_rfl (h'.not_isPrefix hirr)

end Endian
