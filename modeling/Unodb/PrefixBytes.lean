import Unodb.KeyPrefix
import Unodb.Util.CommonPrefix

/-!
# Key prefix words as byte lists

Every operation on the word of a key prefix does to its bytes what the list operation does, whatever
the bytes are that the length does not count.
-/

open Words

namespace Unodb

/-- `key_prefix_snapshot`, a copy of the word of a key prefix. -/
structure KeyPrefixSnapshot where
  u64 : BitVec 64
deriving DecidableEq

namespace KeyPrefixSnapshot

/-- `length()`. -/
def length (p : KeyPrefixSnapshot) : Nat := (wordByte p.u64 7).toNat

/-- `get_key_view()`. -/
def getKeyView (p : KeyPrefixSnapshot) : Except Fault (List UInt8) :=
  if p.length ≤ keyPrefixCapacity then .ok ((List.range p.length).map (wordByte p.u64))
  else .error .badAccess

/-- `shared_len`. -/
def sharedLen (k1 k2 : BitVec 64) (clampBytePos : Nat) : Except Fault Nat :=
  if clampBytePos < 8 then .ok (sharedBytes k1 k2 clampBytePos) else .error .assertion

/-- `get_shared_length`. -/
def getSharedLength (p : KeyPrefixSnapshot) (shiftedKeyU64 : BitVec 64) : Except Fault Nat :=
  sharedLen shiftedKeyU64 p.u64 p.length

/-- `operator[]`. -/
def byteAt (p : KeyPrefixSnapshot) (i : Nat) : Except Fault UInt8 :=
  if i < p.length then .ok (wordByte p.u64 i) else .error .assertion

end KeyPrefixSnapshot

/-- The bytes that a word of a key is seen through: the next eight, padded with zeros. -/
def keyWindow (s : List UInt8) : List UInt8 := s.window 0 8

namespace KeyPrefix

/-- `get_snapshot()`. -/
def getSnapshot (p : KeyPrefix) : KeyPrefixSnapshot := ⟨p.u64⟩

/-- The key prefix reads as a byte list, with the length in the top byte and the bytes below it. -/
structure Reads (p : KeyPrefix) (bs : List UInt8) : Prop where
  bytes_eq : p.bytes = bs
  top : (wordByte p.u64 7).toNat = bs.length
  below : bs.length ≤ 7

theorem reads_iff {p : KeyPrefix} {bs : List UInt8} : p.Reads bs ↔ p.bytes = bs := by
  constructor
  · exact Reads.bytes_eq
  · rintro rfl
    exact ⟨rfl, p.bytes_length.symm, p.bytes_length ▸ p.length_le_capacity⟩

/-! ## 1. Shared lengths are lengths of common prefixes -/

section

variable {as bs : List UInt8} {n : Nat}

/-- Two byte strings that the first bytes of two words spell. -/
theorem commonPrefix_eq_take_sharedBytes (w w' : BitVec 64) (hn : n < 8)
    (has : ∀ i < n, as[i]? = some (wordByte w i)) (hbs : ∀ i < n, bs[i]? = some (wordByte w' i))
    (hend : as.length = n ∨ bs.length = n) :
    as.commonPrefix bs = as.take (sharedBytes w w' n) := by
  have hle := sharedBytes_le w w' n hn
  apply List.commonPrefix_eq_take
  · apply List.ext_getElem?
    intro i
    rw [List.getElem?_take, List.getElem?_take]
    by_cases hi : i < sharedBytes w w' n
    · rw [if_pos hi, if_pos hi, has i (by omega), hbs i (by omega), sharedBytes_eq w w' n hn hi]
    · rw [if_neg hi, if_neg hi]
  · intro a ha hb
    rcases Nat.lt_or_ge (sharedBytes w w' n) n with hlt | hge
    · -- The words differ in the byte after the shared ones.
      rw [has _ hlt, Option.mem_some_iff] at ha
      rw [hbs _ hlt, Option.mem_some_iff] at hb
      exact sharedBytes_ne w w' n hn hlt (ha.trans hb.symm)
    · have hlen : as.length ≤ sharedBytes w w' n ∨ bs.length ≤ sharedBytes w w' n := by omega
      rcases hlen with hlen | hlen
      · rw [List.getElem?_eq_none hlen] at ha
        cases ha
      · rw [List.getElem?_eq_none hlen] at hb
        cases hb

end

section

variable {κ : Type} [LawfulArtKey κ] {r : κ} {s : List UInt8} (hr : LawfulArtKey.Rem r s)
include hr

theorem keyWindow_getElem? {i : Nat} (hi : i < 8) :
    (keyWindow s)[i]? = some (wordByte (ArtKey.getU64 r) i) := by
  rw [keyWindow, List.window_getElem? 0 s hi, LawfulArtKey.rem_getU64 hr i hi]

/-- `get_shared_length` counts the bytes that the prefix and the key share. -/
theorem getSharedLength_eq_commonPrefix (p : KeyPrefix) :
    p.getSharedLength (ArtKey.getU64 r) = (p.bytes.commonPrefix (keyWindow s)).length := by
  have hlt : p.length < 8 := Nat.lt_succ_of_le p.length_le
  have htake := commonPrefix_eq_take_sharedBytes (ArtKey.getU64 r) p.u64 hlt
    (fun i hi => keyWindow_getElem? hr (by omega))
    (fun i hi => by rw [bytes_getElem?, if_pos hi]) (Or.inr p.bytes_length)
  rw [List.commonPrefix_comm, htake, List.length_take, keyWindow, List.length_window]
  have hle := getSharedLength_le p (ArtKey.getU64 r)
  exact (min_eq_left (by omega)).symm

/-- The constructor from two keys packs the bytes that they share, at most seven. -/
theorem make_eq_commonPrefix {k1 : List UInt8} {depth : Nat} (hdepth : depth ≤ k1.length) :
    ∃ p, make k1 r depth = .ok p ∧
      p.bytes = ((keyWindow (k1.drop depth)).commonPrefix (keyWindow s)).take 7 := by
  have hk1 : ∀ i < 7, ((keyWindow (k1.drop depth)).take 7)[i]? =
      some (wordByte (Unodb.getU64 (k1.drop depth) &&& keyBytesMask) i) := by
    intro i hi
    rw [List.getElem?_take, if_pos hi, keyWindow, List.window_getElem? 0 _ (by omega),
      wordByte_and_keyBytesMask, if_pos hi, wordByte_getU64 _ (by omega)]
  have hk2 : ∀ i < 7, ((keyWindow s).take 7)[i]? = some (wordByte (ArtKey.getU64 r) i) := by
    intro i hi
    rw [List.getElem?_take, if_pos hi, keyWindow_getElem? hr (by omega)]
  have hlen : ((keyWindow s).take 7).length = 7 := by
    rw [List.length_take, keyWindow, List.length_window]
    rfl
  refine ⟨_, if_pos hdepth, ?_⟩
  rw [List.commonPrefix_take, commonPrefix_eq_take_sharedBytes _ _ (by omega) hk1 hk2 (Or.inr hlen)]
  apply List.ext_getElem?
  intro i
  obtain ⟨n, hn⟩ : ∃ n, n = sharedBytes (Unodb.getU64 (k1.drop depth) &&& keyBytesMask)
    (ArtKey.getU64 r) 7 := ⟨_, rfl⟩
  have hle : n ≤ 7 := hn ▸ sharedBytes_le _ _ 7 (by omega)
  refine (ofWord_bytes_getElem? _ _ i).trans ?_
  change (if i < sharedBytes _ _ 7 then _ else none) = _
  rw [← hn, List.getElem?_take]
  by_cases hi : i < n
  · rw [if_pos hi, if_pos hi, hk1 i (by omega)]
  · rw [if_neg hi, if_neg hi]

end

/-! ## 2. Snapshots -/

theorem getSnapshot_getKeyView (p : KeyPrefix) : p.getSnapshot.getKeyView = .ok p.bytes :=
  if_pos p.length_le

theorem getSnapshot_getSharedLength (p : KeyPrefix) (w : BitVec 64) :
    p.getSnapshot.getSharedLength w = .ok (p.getSharedLength w) :=
  if_pos (Nat.lt_succ_of_le p.length_le)

/-- Every operation on words is the list operation on the bytes that they stand for. -/
theorem keyPrefix_refines_bytes {κ : Type} [LawfulArtKey κ] {r : κ} {s : List UInt8}
    (hr : LawfulArtKey.Rem r s) (p q : KeyPrefix) :
    (∀ (k1 : List UInt8) (depth : Nat), depth ≤ k1.length → ∃ p', make k1 r depth = .ok p' ∧
      p'.Reads (((keyWindow (k1.drop depth)).commonPrefix (keyWindow s)).take 7)) ∧
    (∀ n ≤ p.length, ∃ p', truncate n p = .ok p' ∧ p'.Reads (p.bytes.take n)) ∧
    (∀ n, 0 < n → n ≤ p.length → ∃ p', p.cut n = .ok p' ∧ p'.Reads (p.bytes.drop n)) ∧
    (∀ b, q.length + 1 + p.length ≤ 7 → ∃ p', p.prepend q b = .ok p' ∧
      p'.Reads (q.bytes ++ [b] ++ p.bytes)) ∧
    p.getSharedLength (ArtKey.getU64 r) = (p.bytes.commonPrefix (keyWindow s)).length ∧
    p.getSnapshot.getSharedLength (ArtKey.getU64 r) =
      .ok (p.bytes.commonPrefix (keyWindow s)).length ∧
    p.getSnapshot.getKeyView = .ok p.bytes ∧ p.Reads p.bytes := by
  have hshared := getSharedLength_eq_commonPrefix hr p
  refine ⟨fun k1 depth hdepth => ?_, fun n hn => ?_, fun n h0 hn => ?_, fun b hlen => ?_, hshared,
    hshared ▸ p.getSnapshot_getSharedLength _, p.getSnapshot_getKeyView, reads_iff.mpr rfl⟩
  · obtain ⟨p', hmake, hbytes⟩ := make_eq_commonPrefix hr hdepth
    exact ⟨p', hmake, reads_iff.mpr hbytes⟩
  · obtain ⟨p', htruncate, hbytes⟩ := truncate_spec hn
    exact ⟨p', htruncate, reads_iff.mpr hbytes⟩
  · obtain ⟨p', hcut, hbytes⟩ := cut_spec h0 hn
    exact ⟨p', hcut, reads_iff.mpr hbytes⟩
  · have hcap : p.length + q.length < keyPrefixCapacity := by
      unfold keyPrefixCapacity
      omega
    obtain ⟨p', hprepend, hbytes⟩ := prepend_spec (b := b) hcap
    exact ⟨p', hprepend, reads_iff.mpr (by rw [hbytes, List.append_assoc, List.singleton_append])⟩

/-- The integer key whose bytes are 1 to 8, and the prefix 1, 2, 3 with stale bytes after it. -/
theorem keyPrefix_refines_bytes_three :
    KeyPrefix.getSharedLength ⟨0x03FFFFFFFF030201, by decide⟩ 0x0807060504030201 = 3 :=
  (keyPrefix_refines_bytes (LawfulArtKey.rem_self (⟨0x0807060504030201⟩ : U64Key))
    ⟨0x03FFFFFFFF030201, by decide⟩ ⟨0, by decide⟩).2.2.2.2.1.trans (by decide)

end KeyPrefix
end Unodb
