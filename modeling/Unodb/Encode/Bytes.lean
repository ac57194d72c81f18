import Unodb.Encode.Encoder

/-!
# What the encoder appends

Whatever the buffer holds and however often it is replaced, a call appends the bytes of its
component to the key.
-/

open Endian

namespace Unodb

namespace KeyEncoder

variable {e : KeyEncoder}

theorem le_bitCeil (n : Nat) : n ≤ bitCeil n := Nat.le_pow_clog (by decide) n

theorem getKeyView_length (e : KeyEncoder) : e.getKeyView.length = e.off := by
  rw [getKeyView, List.length_take, Nat.min_eq_left e.off_le]

theorem getKeyView_reset (e : KeyEncoder) : e.reset.getKeyView = [] := rfl

/-- `ensure_available` makes room and keeps the key. -/
theorem ensureAvailable_spec (e : KeyEncoder) (req : Nat) :
    (e.ensureAvailable req).getKeyView = e.getKeyView ∧ (e.ensureAvailable req).off = e.off ∧
      e.off + req ≤ (e.ensureAvailable req).buf.length := by
  have hoff := e.off_le
  unfold ensureAvailable
  split
  · have hceil := le_bitCeil (e.off + req)
    refine ⟨?_, rfl, ?_⟩
    · change (e.buf.take e.off ++ _).take e.off = e.buf.take e.off
      rw [List.take_left' (by rw [List.length_take]; omega)]
    · rw [ensureCapacity, List.length_append, List.length_take, List.length_replicate]
      omega
  · exact ⟨rfl, rfl, by omega⟩

theorem write_spec (e : KeyEncoder) {data : List UInt8}
    (hroom : e.off + data.length ≤ e.buf.length) :
    ∃ e', e.write data = .ok e' ∧ e'.getKeyView = e.getKeyView ++ data := by
  have hoff := e.off_le
  refine ⟨_, by rw [write, if_pos hroom], ?_⟩
  change (e.buf.take e.off ++ data ++ _).take (e.off + data.length) = e.buf.take e.off ++ data
  rw [List.take_left']
  rw [List.length_append, List.length_take]
  omega

/-- Room is made, then bytes are written. -/
theorem ensureAvailable_write (e : KeyEncoder) (data : List UInt8) :
    ∃ e', (e.ensureAvailable data.length).write data = .ok e' ∧
      e'.getKeyView = e.getKeyView ++ data := by
  obtain ⟨hview, hoff, hroom⟩ := e.ensureAvailable_spec data.length
  rw [← hoff] at hroom
  obtain ⟨e', he', hview'⟩ := (e.ensureAvailable data.length).write_spec hroom
  exact ⟨e', he', by rw [hview', hview]⟩

/-- The bytes of an unsigned integer in the key. -/
def wordBytes (w : IntWidth) (v : BitVec w.bits) : List UInt8 := beBytes w.bytes v.toNat

theorem wordBytes_length (w : IntWidth) (v : BitVec w.bits) :
    (wordBytes w v).length = w.bytes := beBytes_length _ _

theorem bits_pow (w : IntWidth) : 2 ^ w.bits = 256 ^ w.bytes := by
  cases w <;> rfl

theorem toNat_lt (w : IntWidth) (v : BitVec w.bits) : v.toNat < 256 ^ w.bytes := by
  rw [← bits_pow]
  exact v.isLt

theorem encodeUnsigned_spec (e : KeyEncoder) (w : IntWidth) (v : BitVec w.bits) :
    ∃ e', e.encodeUnsigned w v = .ok e' ∧ e'.getKeyView = e.getKeyView ++ wordBytes w v := by
  have hdata : (if w = .b8 then [UInt8.ofNat v.toNat]
      else leBytes w.bytes (Endian.bswap w.bytes v.toNat)) = wordBytes w v := by
    split
    · rename_i hw
      subst hw
      have hv : v.toNat < 256 := v.isLt
      change _ = [UInt8.ofNat (v.toNat % 256)]
      rw [Nat.mod_eq_of_lt hv]
    · exact leBytes_bswap _ _
  have hwrite := e.ensureAvailable_write (wordBytes w v)
  rw [wordBytes_length] at hwrite
  rw [encodeUnsigned, ← apply_ite (e.ensureAvailable w.bytes).write, hdata]
  exact hwrite

/-- The bytes of a number in the key. -/
def numberBytes (n : Number) : List UInt8 := wordBytes n.type.word (encodeWord n.type n.bits)

/-! ## 1. Texts -/

/-- A text without what `encode_text` leaves out of it. -/
def stripped (text : List UInt8) : List UInt8 :=
  (text.take maxlen).take (unpadded (text.take maxlen) (text.take maxlen).length)

/-- The bytes of a text in the key. -/
def textBytes (text : List UInt8) : List UInt8 :=
  stripped text ++ [pad] ++ beBytes 2 (maxlen - (stripped text).length)

theorem unpadded_le (text : List UInt8) (n : Nat) : unpadded text n ≤ n := by
  induction n with
  | zero => exact Nat.le_refl 0
  | succ n ih =>
    rw [unpadded]
    split
    · exact Nat.le_refl _
    · omega

theorem stripped_length (text : List UInt8) :
    (stripped text).length = unpadded (text.take maxlen) (text.take maxlen).length := by
  rw [stripped, List.length_take, Nat.min_eq_left (unpadded_le _ _)]

theorem stripped_length_le (text : List UInt8) : (stripped text).length ≤ maxlen := by
  have hlen : (text.take maxlen).length ≤ maxlen := List.length_take_le _ _
  exact (stripped_length text ▸ unpadded_le _ _).trans hlen

/-- What is left out of a text are pad bytes. -/
theorem take_unpadded {text : List UInt8} {n : Nat} (hn : n ≤ text.length) :
    text.take n = text.take (unpadded text n) ++ List.replicate (n - unpadded text n) pad := by
  induction n with
  | zero => simp [unpadded]
  | succ n ih =>
    rw [unpadded]
    split
    · simp
    · rename_i hpad
      rw [not_not] at hpad
      have hle := unpadded_le text n
      rw [List.take_add_one, hpad, ih (by omega), Option.toList_some, List.append_assoc,
        ← List.replicate_succ', Nat.succ_sub hle]

/-- A text without its trailing pad bytes does not end in one. -/
theorem getElem?_unpadded {text : List UInt8} {n m : Nat} (h : unpadded text n = m + 1) :
    text[m]? ≠ some pad := by
  induction n with
  | zero => cases h
  | succ n ih =>
    rw [unpadded] at h
    split at h
    · rename_i hne
      rwa [← Nat.succ.inj h]
    · exact ih h

theorem stripped_last (text : List UInt8) {u : List UInt8} {b : UInt8}
    (h : stripped text = u ++ [b]) : b ≠ pad := by
  have hlen := stripped_length text
  rw [h, List.length_append, List.length_singleton] at hlen
  have hne := getElem?_unpadded hlen.symm
  have hget : (stripped text)[u.length]? = some b := by
    rw [h, List.getElem?_append_right (Nat.le_refl _), Nat.sub_self]
    rfl
  rw [stripped, List.getElem?_take, if_pos (by omega)] at hget
  rintro rfl
  exact hne hget

theorem encodeText_spec (e : KeyEncoder) (text : List UInt8) :
    ∃ e', e.encodeText text = .ok e' ∧ e'.getKeyView = e.getKeyView ++ textBytes text := by
  have htake : (if maxlen < text.length then text.take maxlen else text) = text.take maxlen := by
    split
    · rfl
    · rw [List.take_of_length_le (by omega)]
  have hlt : maxlen - (stripped text).length < 2 ^ 16 := by
    have : maxlen = 65532 := rfl
    omega
  unfold encodeText
  rw [htake]
  simp only
  rw [← stripped_length, show List.take (stripped text).length (text.take maxlen) = stripped text by
    rw [stripped_length]; rfl]
  obtain ⟨hview0, -, -⟩ := e.ensureAvailable_spec ((stripped text).length + 1 + 2)
  obtain ⟨e1, he1, hview1⟩ :=
    (e.ensureAvailable ((stripped text).length + 1 + 2)).ensureAvailable_write (stripped text)
  obtain ⟨e2, he2, hview2⟩ := e1.encodeUnsigned_spec .b8 (BitVec.ofNat IntWidth.b8.bits pad.toNat)
  obtain ⟨e3, he3, hview3⟩ := e2.encodeUnsigned_spec .b16
    (BitVec.ofNat IntWidth.b16.bits (maxlen - (stripped text).length))
  refine ⟨e3, ?_, ?_⟩
  · rw [appendBytes, he1]
    simp only [bind, Except.bind, he2]
    exact he3
  · rw [hview3, hview2, hview1, hview0, textBytes, wordBytes, wordBytes, BitVec.toNat_ofNat,
      BitVec.toNat_ofNat, show (maxlen - (stripped text).length) % 2 ^ IntWidth.b16.bits = _ from
        Nat.mod_eq_of_lt hlt]
    simp only [List.append_assoc]
    rfl

/-! ## 2. Keys -/

def componentBytes : Component → List UInt8
  | .number n => numberBytes n
  | .text t => textBytes t

/-- The bytes of a key. -/
def keyBytes (cs : List Component) : List UInt8 := cs.flatMap componentBytes

theorem encodeComponent_spec (e : KeyEncoder) (c : Component) :
    ∃ e', e.encodeComponent c = .ok e' ∧ e'.getKeyView = e.getKeyView ++ componentBytes c := by
  cases c with
  | number n => exact e.encodeUnsigned_spec n.type.word (encodeWord n.type n.bits)
  | text t => exact e.encodeText_spec t

theorem encodeAll_spec (e : KeyEncoder) (cs : List Component) :
    ∃ e', e.encodeAll cs = .ok e' ∧ e'.getKeyView = e.getKeyView ++ keyBytes cs := by
  induction cs generalizing e with
  | nil => exact ⟨e, rfl, (List.append_nil _).symm⟩
  | cons c cs ih =>
    obtain ⟨e1, he1, hview1⟩ := e.encodeComponent_spec c
    obtain ⟨e2, he2, hview2⟩ := ih e1
    refine ⟨e2, ?_, ?_⟩
    · rw [encodeAll, List.foldlM_cons, he1]
      exact he2
    · rw [hview2, hview1, keyBytes, keyBytes, List.flatMap_cons, List.append_assoc]

end KeyEncoder

end Unodb
