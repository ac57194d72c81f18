import Unodb.Key

/-!
# Compressed key prefixes (`key_prefix`)

At most seven prefix bytes and their number are packed into one word: byte `i` of the prefix is
byte `i` of the word and the length is its top byte.  Bytes between the length and the top byte
are stale.
-/

open Words

namespace Unodb

/-- `key_prefix_capacity`. -/
def keyPrefixCapacity : Nat := 7

/-- `key_prefix::key_bytes_mask`. -/
def keyBytesMask : BitVec 64 := 0x00FFFFFFFFFFFFFF#64

/-- `key_prefix::length_to_word`, after its assertion. -/
def lengthToWord (length : Nat) : BitVec 64 := BitVec.ofNat 64 length <<< (7 * 8)

/-- `key_prefix`, with the assertion of `length()` as a field. -/
structure KeyPrefix where
  u64 : BitVec 64
  length_le : (wordByte u64 7).toNat ≤ keyPrefixCapacity
deriving DecidableEq

theorem wordByte_lengthToWord (n : Nat) (hn : n ≤ keyPrefixCapacity) {i : Nat} (hi : i < 8) :
    wordByte (lengthToWord n) i = if i = 7 then UInt8.ofNat n else 0 := by
  have hword : BitVec.ofNat 64 n = byteWord (UInt8.ofNat n) := by
    apply BitVec.eq_of_toNat_eq
    have hlt : n < 256 := by
      unfold keyPrefixCapacity at hn
      omega
    simp only [byteWord, BitVec.toNat_ofNat, BitVec.toNat_setWidth, UInt8.toNat_toBitVec,
      UInt8.toNat_ofNat']
    rw [Nat.mod_eq_of_lt hlt]
  rw [lengthToWord, wordByte_shiftLeft _ _ _ hi, hword, wordByte_byteWord]
  by_cases h7 : i = 7
  · simp [h7]
  · rw [if_neg h7, if_pos (by omega)]

theorem keyBytesMask_eq : keyBytesMask = lowMask 7 := by decide

theorem toNat_ofNat_length {n : Nat} (hn : n ≤ keyPrefixCapacity) : (UInt8.ofNat n).toNat = n := by
  unfold keyPrefixCapacity at hn
  rw [UInt8.toNat_ofNat']
  omega

/-- A word made of seven key bytes and a length. -/
theorem wordByte_or_lengthToWord (w : BitVec 64) (n : Nat) (hn : n ≤ keyPrefixCapacity)
    (hw : wordByte w 7 = 0) {i : Nat} (hi : i < 8) :
    wordByte (w ||| lengthToWord n) i = if i = 7 then UInt8.ofNat n else wordByte w i := by
  rw [wordByte_or, wordByte_lengthToWord n hn hi]
  by_cases h7 : i = 7
  · subst h7
    rw [if_pos rfl, if_pos rfl, hw]
    simp
  · rw [if_neg h7, if_neg h7]
    simp

theorem wordByte_and_keyBytesMask (w : BitVec 64) (i : Nat) :
    wordByte (w &&& keyBytesMask) i = if i < 7 then wordByte w i else 0 := by
  rw [keyBytesMask_eq, wordByte_and_lowMask w 7 i (by omega)]

namespace KeyPrefix

/-- The word `w`, whose top byte is free, with a length put in: `w | length_to_word(length)`. -/
def ofWord (w : BitVec 64) (length : Nat) (hw : wordByte w 7 = 0)
    (hlen : length ≤ keyPrefixCapacity) : KeyPrefix where
  u64 := w ||| lengthToWord length
  length_le := by
    rw [wordByte_or_lengthToWord w length hlen hw (by omega), if_pos rfl, toNat_ofNat_length hlen]
    exact hlen

/-- `length()`. -/
def length (p : KeyPrefix) : Nat := (wordByte p.u64 7).toNat

/-- `shared_len`. -/
def sharedLen (k1 k2 : BitVec 64) (clampBytePos : Nat) : Nat := sharedBytes k1 k2 clampBytePos

/-- `get_shared_length(shifted_key_u64)`, of the prefix and of its snapshot alike. -/
def getSharedLength (p : KeyPrefix) (shiftedKeyU64 : BitVec 64) : Nat :=
  sharedLen shiftedKeyU64 p.u64 p.length

/-- `key_prefix(k1, shifted_k2, depth)`, which packs `make_u64`. -/
def make {κ : Type} [ArtKey κ] (k1 : List UInt8) (shiftedK2 : κ) (depth : Nat) :
    Except Fault KeyPrefix :=
  if depth ≤ k1.length then
    let k1U64 := Unodb.getU64 (k1.drop depth) &&& keyBytesMask
    .ok (ofWord k1U64 (sharedLen k1U64 (ArtKey.getU64 shiftedK2) keyPrefixCapacity)
      (by rw [wordByte_and_keyBytesMask, if_neg (by omega)])
      (sharedBytes_le _ _ _ (by decide)))
  else .error .badAccess

/-- `key_prefix(key_prefix_len, source_key_prefix)`. -/
def truncate (keyPrefixLen : Nat) (source : KeyPrefix) : Except Fault KeyPrefix :=
  if h : keyPrefixLen ≤ keyPrefixCapacity then
    .ok (ofWord (source.u64 &&& keyBytesMask) keyPrefixLen
      (by rw [wordByte_and_keyBytesMask, if_neg (by omega)]) h)
  else .error .assertion

/-- `cut(cut_len)`. -/
def cut (p : KeyPrefix) (cutLen : Nat) : Except Fault KeyPrefix :=
  if 0 < cutLen ∧ cutLen ≤ p.length then
    .ok (ofWord ((p.u64 >>> (cutLen * 8)) &&& keyBytesMask) (p.length - cutLen)
      (by rw [wordByte_and_keyBytesMask, if_neg (by omega)])
      (Nat.le_trans (Nat.sub_le _ _) p.length_le))
  else .error .assertion

/-- The key bytes that `prepend` packs: `prefix1`, `prefix2` and the prefix itself. -/
def prependBytes (p prefix1 : KeyPrefix) (prefix2 : UInt8) : BitVec 64 :=
  let prefix1Mask := (1#64 <<< (prefix1.length * 8)) - 1
  let prefix3Mask := (1#64 <<< (p.length * 8)) - 1
  let prefix3 := p.u64 &&& prefix3Mask
  let shiftedPrefix3 := prefix3 <<< (prefix1.length * 8 + 8)
  let shiftedPrefix2 := byteWord prefix2 <<< (prefix1.length * 8)
  let maskedPrefix1 := prefix1.u64 &&& prefix1Mask
  shiftedPrefix3 ||| shiftedPrefix2 ||| maskedPrefix1

theorem wordByte_prependBytes (p prefix1 : KeyPrefix) (prefix2 : UInt8) {i : Nat} (hi : i < 8) :
    wordByte (prependBytes p prefix1 prefix2) i =
      if i < prefix1.length then wordByte prefix1.u64 i
      else if i = prefix1.length then prefix2
      else if i - (prefix1.length + 1) < p.length then wordByte p.u64 (i - (prefix1.length + 1))
      else 0 := by
  have hp : p.length < 8 := Nat.lt_succ_of_le p.length_le
  have hp1 : prefix1.length < 8 := Nat.lt_succ_of_le prefix1.length_le
  simp only [prependBytes, shiftLeft_one_sub_one _ hp, shiftLeft_one_sub_one _ hp1]
  rw [show prefix1.length * 8 + 8 = (prefix1.length + 1) * 8 by omega, wordByte_or, wordByte_or,
    wordByte_shiftLeft _ _ _ hi, wordByte_shiftLeft _ _ _ hi, wordByte_and_lowMask _ _ _ (by omega),
    wordByte_and_lowMask _ _ _ (by omega), wordByte_byteWord]
  by_cases hlt : i < prefix1.length
  · simp [hlt, Nat.lt_succ_of_lt hlt]
  · by_cases heq : i = prefix1.length
    · simp [heq]
    · have hge : ¬ i < prefix1.length + 1 := by omega
      have hne : ¬ i - prefix1.length = 0 := by omega
      simp only [hlt, heq, hge, hne, if_false, UInt8.or_zero]

/-- `prepend(prefix1, prefix2)`. -/
def prepend (p prefix1 : KeyPrefix) (prefix2 : UInt8) : Except Fault KeyPrefix :=
  if h : p.length + prefix1.length < keyPrefixCapacity then
    .ok (ofWord (prependBytes p prefix1 prefix2) (p.length + prefix1.length + 1)
      (by
        unfold keyPrefixCapacity at h
        rw [wordByte_prependBytes _ _ _ (by omega), if_neg (by omega), if_neg (by omega),
          if_neg (by omega)])
      h)
  else .error .assertion

/-- `operator[]`. -/
def byteAt (p : KeyPrefix) (i : Nat) : Except Fault UInt8 :=
  if i < p.length then .ok (wordByte p.u64 i) else .error .assertion

/-- `get_snapshot().get_key_view()`: the prefix as a byte string. -/
def bytes (p : KeyPrefix) : List UInt8 := (List.range p.length).map (wordByte p.u64)

/-! ## 1. Words as byte lists -/

theorem bytes_length (p : KeyPrefix) : p.bytes.length = p.length := by
  rw [bytes, List.length_map, List.length_range]

theorem length_le_capacity (p : KeyPrefix) : p.length ≤ 7 := p.length_le

theorem bytes_getElem? (p : KeyPrefix) (i : Nat) :
    p.bytes[i]? = if i < p.length then some (wordByte p.u64 i) else none := by
  by_cases hi : i < p.length <;> simp [bytes, hi]

theorem byteAt_eq_ok {p : KeyPrefix} {i : Nat} {b : UInt8} (h : p.bytes[i]? = some b) :
    p.byteAt i = .ok b := by
  rw [bytes_getElem?] at h
  by_cases hi : i < p.length
  · rw [if_pos hi, Option.some_inj] at h
    rw [byteAt, if_pos hi, h]
  · rw [if_neg hi] at h
    exact absurd h (by simp)

section OfWord

variable {w : BitVec 64} {n : Nat} (hw : wordByte w 7 = 0) (hn : n ≤ keyPrefixCapacity)

theorem ofWord_length : (ofWord w n hw hn).length = n := by
  rw [length, ofWord, wordByte_or_lengthToWord w n hn hw (by omega), if_pos rfl,
    toNat_ofNat_length hn]

theorem ofWord_bytes_getElem? (i : Nat) :
    (ofWord w n hw hn).bytes[i]? = if i < n then some (wordByte w i) else none := by
  rw [bytes_getElem?, ofWord_length]
  by_cases hi : i < n
  · have h7 : i < 7 := Nat.lt_of_lt_of_le hi hn
    rw [if_pos hi, if_pos hi, ofWord, wordByte_or_lengthToWord w n hn hw (by omega),
      if_neg (by omega)]
  · rw [if_neg hi, if_neg hi]

end OfWord

/-- The truncating constructor keeps the first bytes. -/
theorem truncate_spec {p : KeyPrefix} {n : Nat} (hn : n ≤ p.length) :
    ∃ q, truncate n p = .ok q ∧ q.bytes = p.bytes.take n := by
  have hcap : n ≤ keyPrefixCapacity := Nat.le_trans hn p.length_le
  refine ⟨_, dif_pos hcap, ?_⟩
  apply List.ext_getElem?
  intro i
  rw [ofWord_bytes_getElem?, List.getElem?_take, bytes_getElem?]
  by_cases hi : i < n
  · have h7 : i < 7 := Nat.lt_of_lt_of_le hi hcap
    rw [if_pos hi, if_pos hi, if_pos (by omega), wordByte_and_keyBytesMask, if_pos h7]
  · rw [if_neg hi, if_neg hi]

/-- `cut` drops the first bytes. -/
theorem cut_length_le {p q : KeyPrefix} {n : Nat} (h : p.cut n = .ok q) : q.length ≤ p.length := by
  unfold cut at h
  split at h
  · cases h
    rw [ofWord_length]
    exact Nat.sub_le _ _
  · cases h

theorem cut_spec {p : KeyPrefix} {n : Nat} (h0 : 0 < n) (hn : n ≤ p.length) :
    ∃ q, p.cut n = .ok q ∧ q.bytes = p.bytes.drop n := by
  refine ⟨_, if_pos ⟨h0, hn⟩, ?_⟩
  apply List.ext_getElem?
  intro i
  have hcap := p.length_le_capacity
  rw [ofWord_bytes_getElem?, List.getElem?_drop, bytes_getElem?]
  by_cases hi : i < p.length - n
  · rw [if_pos hi, if_pos (by omega), wordByte_and_keyBytesMask, if_pos (by omega),
      wordByte_ushiftRight]
  · rw [if_neg hi, if_neg (by omega)]

/-- `prepend` puts the other prefix and the key byte in front. -/
theorem prepend_spec {p p1 : KeyPrefix} {b : UInt8}
    (h : p.length + p1.length < keyPrefixCapacity) :
    ∃ q, p.prepend p1 b = .ok q ∧ q.bytes = p1.bytes ++ b :: p.bytes := by
  have h7 : p.length + p1.length < 7 := h
  refine ⟨_, dif_pos h, ?_⟩
  apply List.ext_getElem?
  intro i
  rw [ofWord_bytes_getElem?, List.getElem?_append, bytes_length]
  by_cases hi : i < p.length + p1.length + 1
  · rw [if_pos hi, wordByte_prependBytes _ _ _ (by omega)]
    by_cases hlt : i < p1.length
    · rw [if_pos hlt, if_pos hlt, bytes_getElem?, if_pos hlt]
    · rw [if_neg hlt, if_neg hlt, List.getElem?_cons]
      by_cases heq : i = p1.length
      · simp [heq]
      · have hlt' : i - (p1.length + 1) < p.length := by omega
        rw [if_neg heq, if_pos hlt', if_neg (by omega), Nat.sub_sub, bytes_getElem?, if_pos hlt']
  · rw [if_neg hi, if_neg (by omega), List.getElem?_cons, if_neg (by omega), Nat.sub_sub,
      bytes_getElem?, if_neg (by omega)]

/-! ## 2. Shared lengths -/

/-- Zero padding does not hide the end of a string: two strings, neither a prefix of the other,
    whose padded forms agree on `n` bytes, are both longer than `n`. -/
theorem take_eq_take_of_getD {s t : List UInt8} {n : Nat}
    (h : ∀ i < n, s.getD i 0 = t.getD i 0) (hst : ¬ s <+: t) (hts : ¬ t <+: s) :
    n < s.length ∧ n < t.length ∧ s.take n = t.take n := by
  have hagree : ∀ i < n, i < s.length → i < t.length → s[i]? = t[i]? := by
    intro i hi his hit
    have hget := h i hi
    rw [List.getD_eq_getElem?_getD, List.getD_eq_getElem?_getD, List.getElem?_eq_getElem his,
      List.getElem?_eq_getElem hit] at hget
    rw [List.getElem?_eq_getElem his, List.getElem?_eq_getElem hit]
    exact congrArg some hget
  have hlong : n < s.length ∧ n < t.length := by
    by_contra hshort
    rcases Nat.le_total s.length t.length with hle | hle
    · apply hst
      rw [List.prefix_iff_getElem?]
      intro i hi
      rw [← hagree i (by omega) hi (by omega), List.getElem?_eq_getElem hi]
    · apply hts
      rw [List.prefix_iff_getElem?]
      intro i hi
      rw [hagree i (by omega) (by omega) hi, List.getElem?_eq_getElem hi]
  refine ⟨hlong.1, hlong.2, List.ext_getElem? fun i => ?_⟩
  rw [List.getElem?_take, List.getElem?_take]
  by_cases hi : i < n
  · rw [if_pos hi, if_pos hi, hagree i hi (by omega) (by omega)]
  · rw [if_neg hi, if_neg hi]

theorem bytes_getD (p : KeyPrefix) {i : Nat} (hi : i < p.length) :
    p.bytes.getD i 0 = wordByte p.u64 i := by
  rw [List.getD_eq_getElem?_getD, bytes_getElem?, if_pos hi, Option.getD_some]

section SharedLength

variable {p : KeyPrefix} {w : BitVec 64} {s : List UInt8}

theorem getSharedLength_le (p : KeyPrefix) (w : BitVec 64) : p.getSharedLength w ≤ p.length :=
  sharedBytes_le _ _ _ (Nat.lt_succ_of_le p.length_le)

theorem getSharedLength_eq (hw : ∀ i < 8, wordByte w i = s.getD i 0) {i : Nat}
    (hi : i < p.getSharedLength w) : p.bytes.getD i 0 = s.getD i 0 := by
  have hlt : i < p.length := Nat.lt_of_lt_of_le hi (getSharedLength_le p w)
  have hcap := p.length_le_capacity
  rw [bytes_getD p hlt, ← hw i (by omega)]
  exact (sharedBytes_eq _ _ _ (by omega) hi).symm

theorem getSharedLength_ne (hw : ∀ i < 8, wordByte w i = s.getD i 0)
    (hlt : p.getSharedLength w < p.length) :
    p.bytes.getD (p.getSharedLength w) 0 ≠ s.getD (p.getSharedLength w) 0 := by
  have hcap := p.length_le_capacity
  rw [bytes_getD p hlt, ← hw _ (by omega)]
  exact (sharedBytes_ne _ _ _ (by omega) hlt).symm

theorem getSharedLength_of_getD (hw : ∀ i < 8, wordByte w i = s.getD i 0)
    (h : ∀ i < p.length, p.bytes.getD i 0 = s.getD i 0) : p.getSharedLength w = p.length := by
  by_contra hne
  have hlt : p.getSharedLength w < p.length :=
    Nat.lt_of_le_of_ne (getSharedLength_le p w) hne
  exact getSharedLength_ne hw hlt (h _ hlt)

/-- The whole prefix is shared exactly when it is a prefix of what is left of the key, unless the
    rest of the prefix after the end of the key is zero. -/
theorem getSharedLength_eq_length_iff (hw : ∀ i < 8, wordByte w i = s.getD i 0)
    (hs : ∀ z, p.bytes ≠ s ++ List.replicate z 0) :
    p.getSharedLength w = p.length ↔ p.bytes <+: s := by
  constructor
  · intro heq
    have hget : ∀ i < p.bytes.length, p.bytes.getD i 0 = s.getD i 0 := fun i hi =>
      getSharedLength_eq hw (by rwa [heq, ← bytes_length])
    rcases Nat.lt_or_ge s.length p.bytes.length with hlt | hge
    · refine absurd (List.ext_getElem? fun i => ?_) (hs (p.bytes.length - s.length))
      rcases Nat.lt_or_ge i p.bytes.length with hi | hi
      · have hi' := hget i hi
        simp only [List.getD_eq_getElem?_getD] at hi'
        rw [List.getElem?_append, List.getElem?_replicate]
        rcases Nat.lt_or_ge i s.length with his | his
        · rw [if_pos his]
          rw [List.getElem?_eq_getElem hi, List.getElem?_eq_getElem his] at hi' ⊢
          rw [Option.getD_some, Option.getD_some] at hi'
          rw [hi']
        · rw [if_neg (by omega), if_pos (by omega)]
          rw [List.getElem?_eq_getElem hi, List.getElem?_eq_none his] at hi'
          rw [List.getElem?_eq_getElem hi]
          exact congrArg some hi'
      · rw [List.getElem?_eq_none hi, List.getElem?_eq_none (by simp; omega)]
    · refine List.prefix_iff_getElem?.mpr fun i hi => ?_
      have hi' := hget i hi
      simp only [List.getD_eq_getElem?_getD] at hi'
      rw [List.getElem?_eq_getElem hi, List.getElem?_eq_getElem (Nat.lt_of_lt_of_le hi hge)] at hi'
      rw [List.getElem?_eq_getElem (Nat.lt_of_lt_of_le hi hge)]
      exact congrArg some hi'.symm
  · intro hps
    refine getSharedLength_of_getD hw fun i hlt => ?_
    rw [← bytes_length] at hlt
    have hget := List.prefix_iff_getElem?.mp hps _ hlt
    rw [List.getD_eq_getElem?_getD, List.getD_eq_getElem?_getD, hget,
      List.getElem?_eq_getElem hlt]

/-- A prefix that is not fully shared leaves the key at the shared length. -/
theorem getSharedLength_lt (hw : ∀ i < 8, wordByte w i = s.getD i 0) (hs : ¬ s <+: p.bytes)
    (hlt : p.getSharedLength w < p.length) :
    ∃ b c, p.bytes[p.getSharedLength w]? = some b ∧ s[p.getSharedLength w]? = some c ∧ b ≠ c ∧
      p.bytes.take (p.getSharedLength w) = s.take (p.getSharedLength w) := by
  have hps : ¬ p.bytes <+: s := fun h => by
    have := (getSharedLength_eq_length_iff hw fun z heq => hs ⟨_, heq.symm⟩).mpr h
    omega
  obtain ⟨hn, hn', htake⟩ := take_eq_take_of_getD (n := p.getSharedLength w)
    (fun i hi => getSharedLength_eq hw hi) hps hs
  refine ⟨_, _, List.getElem?_eq_getElem hn, List.getElem?_eq_getElem hn', ?_, htake⟩
  have hne := getSharedLength_ne hw hlt
  rwa [List.getD_eq_getElem?_getD, List.getD_eq_getElem?_getD, List.getElem?_eq_getElem hn,
    List.getElem?_eq_getElem hn'] at hne

end SharedLength

/-- The prefix made from two strings that part ways: their common bytes, at most seven. -/
theorem make_spec {κ : Type} [LawfulArtKey κ] {k1 : List UInt8} {r : κ} {depth : Nat}
    {s : List UInt8} (hr : LawfulArtKey.Rem r s) (hdepth : depth ≤ k1.length)
    (h12 : ¬ k1.drop depth <+: s) (h21 : ¬ s <+: k1.drop depth) :
    ∃ p, make k1 r depth = .ok p ∧ p.length < (k1.drop depth).length ∧ p.length < s.length ∧
      p.bytes = (k1.drop depth).take p.length ∧ p.bytes = s.take p.length ∧
      (p.length < 7 → (k1.drop depth)[p.length]? ≠ s[p.length]?) := by
  have hw1 : ∀ i < 7, wordByte (Unodb.getU64 (k1.drop depth) &&& keyBytesMask) i =
      (k1.drop depth).getD i 0 := by
    intro i hi
    rw [wordByte_and_keyBytesMask, if_pos hi, wordByte_getU64 _ (by omega)]
  have hw2 := LawfulArtKey.rem_getU64 hr
  obtain ⟨n, hn⟩ : ∃ n, n = sharedLen (Unodb.getU64 (k1.drop depth) &&& keyBytesMask)
    (ArtKey.getU64 r) keyPrefixCapacity := ⟨_, rfl⟩
  have hn7 : n ≤ 7 := by
    rw [hn]
    exact sharedBytes_le _ _ 7 (by omega)
  have hagree : ∀ i < n, (k1.drop depth).getD i 0 = s.getD i 0 := by
    intro i hi
    rw [← hw1 i (by omega), ← hw2 i (by omega)]
    rw [hn] at hi
    exact sharedBytes_eq _ _ 7 (by omega) hi
  obtain ⟨hlt1, hlt2, htake⟩ := take_eq_take_of_getD hagree h12 h21
  refine ⟨_, if_pos hdepth, ?_⟩
  simp only [ofWord_length, ← hn]
  refine ⟨hlt1, hlt2, ?_⟩
  rw [← htake, ← and_assoc, and_self]
  constructor
  · apply List.ext_getElem?
    intro i
    rw [ofWord_bytes_getElem?, List.getElem?_take]
    by_cases hi : i < n
    · rw [if_pos hi, if_pos hi, hw1 i (by omega), List.getD_eq_getElem?_getD,
        List.getElem?_eq_getElem (by omega), Option.getD_some]
    · rw [if_neg hi, if_neg hi]
  · intro h7 heq
    have hne := sharedBytes_ne (Unodb.getU64 (k1.drop depth) &&& keyBytesMask) (ArtKey.getU64 r) 7
      (by omega) (by rw [← show n = sharedBytes _ _ 7 from hn]; exact h7)
    rw [← show n = sharedBytes _ _ 7 from hn, hw1 n h7, hw2 n (by omega),
      List.getD_eq_getElem?_getD, List.getD_eq_getElem?_getD, heq] at hne
    exact hne rfl

end KeyPrefix

end Unodb
