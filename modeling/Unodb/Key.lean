import Unodb.Util.Words

/-!
# Keys in binary-comparable format (`basic_art_key`)

Both key types of the index are instances of one class: 64-bit integers, kept byte-swapped in a
word, and variable-length byte strings (`key_view`).
-/

open Words

namespace Unodb

/-- What ends an operation abnormally. -/
inductive Fault where
  /-- `UNODB_DETAIL_ASSERT` fails. -/
  | assertion
  /-- `UNODB_DETAIL_CANNOT_HAPPEN` is reached. -/
  | cannotHappen
  /-- A view or an array is read past its end, or a null or freed pointer is followed. -/
  | badAccess
  /-- `std::length_error` with its message. -/
  | lengthError (what : String)
  /-- `std::bad_alloc`. -/
  | badAlloc
  /-- The loop bound of the model is used up. -/
  | outOfFuel
deriving DecidableEq, Repr

/-- `std::memcmp` of two buffers of one length: the difference of the first bytes that differ. -/
def memcmp : List UInt8 → List UInt8 → Int
  | a :: as, b :: bs => if a = b then memcmp as bs else (a.toNat : Int) - b.toNat
  | _, _ => 0

/-- `detail::compare`: the shared length first, then the lengths. -/
def compare (a b : List UInt8) : Int :=
  let sharedLength := min a.length b.length
  let ret := memcmp (a.take sharedLength) (b.take sharedLength)
  if ret ≠ 0 then ret
  else if a.length = b.length then 0 else if a.length < b.length then -1 else 1

/-- The word whose bytes are the given ones, lowest first. -/
def leWord : List UInt8 → BitVec 64
  | [] => 0
  | b :: bs => byteWord b ||| (leWord bs <<< (1 * 8))

/-- `detail::get_u64`: the first eight bytes of a view, zero-padded. -/
def getU64 (key : List UInt8) : BitVec 64 := leWord (key.take 8)

/-- `bswap` of a 64-bit integer. -/
def bswap (w : BitVec 64) : BitVec 64 := leWord ((List.range 8).map fun i => wordByte w (7 - i))

/-- The operations of `basic_art_key<KeyType>`. -/
class ArtKey (κ : Type) where
  /-- Whether `KeyType` is `key_view`. -/
  isKeyView : Bool
  size : κ → Nat
  getKeyView : κ → List UInt8
  getU64 : κ → BitVec 64
  /-- `operator[]`. -/
  byteAt : κ → Nat → Except Fault UInt8
  shiftRight : κ → Nat → Except Fault κ

/-- `basic_art_key::cmp(key_view)`. -/
def ArtKey.cmp {κ : Type} [ArtKey κ] (k : κ) (key2 : List UInt8) : Int :=
  compare (ArtKey.getKeyView k) key2

/-- `basic_art_key<std::uint64_t>`: the word that holds the encoded key. -/
structure U64Key where
  key : BitVec 64
deriving DecidableEq, Repr

/-- The constructor from an external integer key (`make_binary_comparable`). -/
def U64Key.make (key : BitVec 64) : U64Key := ⟨bswap key⟩

instance : ArtKey U64Key where
  isKeyView := false
  size _ := 8
  getKeyView k := (List.range 8).map (wordByte k.key)
  getU64 k := k.key
  byteAt k index := if index < 8 then .ok (wordByte k.key index) else .error .assertion
  shiftRight k numBytes :=
    if numBytes ≤ 8 then .ok ⟨k.key >>> (numBytes * 8)⟩ else .error .assertion

/-- `basic_art_key<key_view>`: the view itself. -/
structure KeyView where
  key : List UInt8
deriving DecidableEq, Repr

instance : ArtKey KeyView where
  isKeyView := true
  size k := k.key.length
  getKeyView k := k.key
  getU64 k := getU64 k.key
  byteAt k index := if h : index < k.key.length then .ok k.key[index] else .error .badAccess
  shiftRight k numBytes :=
    if numBytes ≤ k.key.length then .ok ⟨k.key.drop numBytes⟩ else .error .assertion

/-! ## 1. Bytes of words built from views -/

theorem wordByte_leWord (s : List UInt8) {i : Nat} (hi : i < 8) :
    wordByte (leWord s) i = s.getD i 0 := by
  induction s generalizing i with
  | nil => rw [leWord, List.getD_nil]; exact wordByte_zero i
  | cons b bs ih =>
    rw [leWord, wordByte_or, wordByte_byteWord, wordByte_shiftLeft _ _ _ hi]
    cases i with
    | zero => simp
    | succ j =>
      rw [if_neg (by omega), if_neg (by omega), Nat.add_sub_cancel, ih (by omega)]
      simp

theorem wordByte_getU64 (s : List UInt8) {i : Nat} (hi : i < 8) :
    wordByte (getU64 s) i = s.getD i 0 := by
  rw [getU64, wordByte_leWord _ hi, List.getD_eq_getElem?_getD, List.getD_eq_getElem?_getD,
    List.getElem?_take_of_lt hi]

theorem wordByte_bswap (w : BitVec 64) {i : Nat} (hi : i < 8) :
    wordByte (bswap w) i = wordByte w (7 - i) := by
  rw [bswap, wordByte_leWord _ hi]
  simp [List.getD_eq_getElem?_getD, hi]

theorem bswap_bswap (w : BitVec 64) : bswap (bswap w) = w := by
  apply word_ext
  intro i hi
  rw [wordByte_bswap _ hi, wordByte_bswap _ (by omega)]
  congr 1
  omega

/-! ## 2. What the tree relies on about a key -/

/-- A key type whose operations read a byte string: `Rem r s` says that `r` is a key some bytes
    of which may have been shifted out and that `s` is what is left of it. -/
class LawfulArtKey (κ : Type) extends ArtKey κ where
  Rem : κ → List UInt8 → Prop
  rem_self : ∀ k, Rem k (getKeyView k)
  rem_getU64 : ∀ {r s}, Rem r s → ∀ i < 8, wordByte (getU64 r) i = s.getD i 0
  rem_byteAt : ∀ {r s}, Rem r s → ∀ {i b}, s[i]? = some b → byteAt r i = .ok b
  rem_shiftRight : ∀ {r s}, Rem r s → ∀ {n}, n ≤ s.length →
    ∃ r', shiftRight r n = .ok r' ∧ Rem r' (s.drop n)
  getKeyView_injective : Function.Injective getKeyView
  size_eq : ∀ k, size k = (getKeyView k).length

theorem U64Key.getKeyView_length (k : U64Key) : (ArtKey.getKeyView k).length = 8 := by
  simp [ArtKey.getKeyView]

theorem U64Key.getKeyView_getElem? (k : U64Key) (i : Nat) :
    (ArtKey.getKeyView k)[i]? = if i < 8 then some (wordByte k.key i) else none := by
  by_cases hi : i < 8 <;> simp [ArtKey.getKeyView, hi]

theorem U64Key.getKeyView_inj {k k' : U64Key} (h : ArtKey.getKeyView k = ArtKey.getKeyView k') :
    k = k' := by
  have hkey : k.key = k'.key := by
    apply word_ext
    intro i hi
    have hget := congrArg (·[i]?) h
    simpa [U64Key.getKeyView_getElem?, hi] using hget
  cases k
  cases k'
  rw [U64Key.mk.injEq]
  exact hkey

instance : LawfulArtKey U64Key where
  Rem r s := s.length ≤ 8 ∧ ∀ i < 8, wordByte r.key i = s.getD i 0
  rem_self k := by
    refine ⟨(U64Key.getKeyView_length k).le, fun i hi => ?_⟩
    rw [List.getD_eq_getElem?_getD, U64Key.getKeyView_getElem?, if_pos hi, Option.getD_some]
  rem_getU64 h := h.2
  rem_byteAt := by
    intro r s h i b hb
    have hi : i < 8 := by
      have := (List.getElem?_eq_some_iff.mp hb).1
      omega
    simp only [ArtKey.byteAt, if_pos hi, h.2 i hi, List.getD_eq_getElem?_getD, hb,
      Option.getD_some]
  rem_shiftRight := by
    intro r s h n hn
    refine ⟨⟨r.key >>> (n * 8)⟩, ?_, ?_, ?_⟩
    · exact if_pos (Nat.le_trans hn h.1)
    · rw [List.length_drop]
      omega
    · intro i hi
      rw [wordByte_ushiftRight, List.getD_eq_getElem?_getD, List.getElem?_drop]
      by_cases hlt : n + i < 8
      · rw [h.2 _ hlt, List.getD_eq_getElem?_getD]
      · rw [wordByte_of_ge _ (by omega), List.getElem?_eq_none (by omega), Option.getD_none]
  getKeyView_injective _ _ := U64Key.getKeyView_inj
  size_eq k := (U64Key.getKeyView_length k).symm

instance : LawfulArtKey KeyView where
  Rem r s := r.key = s
  rem_self _ := rfl
  rem_getU64 := by
    intro r s h i hi
    subst h
    exact wordByte_getU64 r.key hi
  rem_byteAt := by
    intro r s h i b hb
    subst h
    obtain ⟨hi, hb⟩ := List.getElem?_eq_some_iff.mp hb
    simp only [ArtKey.byteAt, dif_pos hi, hb]
  rem_shiftRight := by
    intro r s h n hn
    subst h
    exact ⟨⟨r.key.drop n⟩, if_pos hn, rfl⟩
  getKeyView_injective := by
    intro k k' h
    cases k
    cases k'
    exact congrArg KeyView.mk h
  size_eq _ := rfl

/-! ## 3. Comparison -/

theorem memcmp_eq_zero_iff {a b : List UInt8} (hlen : a.length = b.length) :
    memcmp a b = 0 ↔ a = b := by
  induction a generalizing b with
  | nil => cases b with
    | nil => simp [memcmp]
    | cons => simp at hlen
  | cons x a ih => cases b with
    | nil => simp at hlen
    | cons y b =>
      rw [memcmp]
      by_cases hxy : x = y
      · rw [if_pos hxy, ih (by simpa using hlen)]
        simp [hxy]
      · have hne : x.toNat ≠ y.toNat := fun h => hxy (UInt8.toNat_inj.mp h)
        rw [if_neg hxy]
        constructor
        · intro h
          omega
        · intro h
          exact absurd (List.cons.inj h).1 hxy

theorem compare_eq_zero_iff (a b : List UInt8) : compare a b = 0 ↔ a = b := by
  simp only [compare]
  by_cases hab : a.length = b.length
  · have htake : a.take (min a.length b.length) = a := List.take_of_length_le (by omega)
    have htake' : b.take (min a.length b.length) = b := List.take_of_length_le (by omega)
    rw [htake, htake']
    split
    · rename_i hret
      exact memcmp_eq_zero_iff hab
    · rename_i hret
      rw [not_not, memcmp_eq_zero_iff hab] at hret
      simp [hret]
  · have hne : a ≠ b := fun h => hab (by rw [h])
    split
    · rename_i hret
      simp [hret, hne]
    · split <;> simp [hne]

theorem compare_cons (a b : UInt8) (as bs : List UInt8) :
    compare (a :: as) (b :: bs) = if a = b then compare as bs else (a.toNat : Int) - b.toNat := by
  simp only [compare, List.length_cons, Nat.succ_min_succ, List.take_succ_cons, memcmp]
  by_cases hab : a = b
  · simp only [if_pos hab, Nat.add_right_cancel_iff, Nat.add_lt_add_iff_right]
  · have hne : (a.toNat : Int) - b.toNat ≠ 0 := by
      intro h
      exact hab (UInt8.toNat_inj.mp (by omega))
    simp only [if_neg hab, if_pos hne]

/-- `compare` tells the lexicographic order. -/
theorem compare_neg_iff (a b : List UInt8) : compare a b < 0 ↔ a < b := by
  induction a generalizing b with
  | nil =>
    cases b with
    | nil => decide
    | cons y b => simp [compare, memcmp]
  | cons x a ih =>
    cases b with
    | nil => simp [compare, memcmp]
    | cons y b =>
      rw [compare_cons, List.cons_lt_cons_iff]
      by_cases hxy : x = y
      · rw [if_pos hxy, ih]
        simp [hxy]
      · have hlt : x < y ↔ x.toNat < y.toNat := UInt8.lt_iff_toNat_lt
        rw [if_neg hxy]
        constructor
        · intro h
          exact .inl (hlt.mpr (by omega))
        · rintro (h | ⟨h, -⟩)
          · have := hlt.mp h
            omega
          · exact absurd h hxy

theorem compare_pos_iff (a b : List UInt8) : 0 < compare a b ↔ b < a := by
  have h1 := compare_neg_iff a b
  have h0 := compare_eq_zero_iff a b
  rcases lt_trichotomy a b with hlt | heq | hgt
  · exact iff_of_false (by have := h1.mpr hlt; omega) (lt_asymm hlt)
  · exact iff_of_false (by have := h0.mpr heq; omega) (heq ▸ lt_irrefl b)
  · refine iff_of_true ?_ hgt
    have hne : compare a b ≠ 0 := fun h => absurd (h0.mp h) hgt.ne'
    have hge : ¬ compare a b < 0 := fun h => lt_asymm hgt (h1.mp h)
    omega
theorem ArtKey.cmp_eq_zero_iff {κ : Type} [ArtKey κ] (k : κ) (key2 : List UInt8) :
    ArtKey.cmp k key2 = 0 ↔ ArtKey.getKeyView k = key2 :=
  compare_eq_zero_iff _ _

end Unodb
