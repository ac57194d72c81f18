import Unodb.Encode.Bytes

/-!
# The order of encoded texts

A text stands for itself padded with zero bytes to `maxlen` bytes.  Encoded texts are ordered as
the texts they stand for, unless one text goes on from the other with a zero byte that the encoding
takes for the pad byte.
-/

open Endian

namespace Unodb

namespace KeyEncoder

/-- A text, truncated and then padded to `maxlen` bytes. -/
def padded (text : List UInt8) : List UInt8 :=
  text.take maxlen ++ List.replicate (maxlen - (text.take maxlen).length) pad

/-- What an encoding promises of two texts: their order, that they are told apart, and that none is
    a proper prefix of the other. -/
def TextLaw (x y s t : List UInt8) : Prop :=
  (x < y ↔ padded s < padded t) ∧ (x = y ↔ padded s = padded t) ∧ (x <+: y → x = y) ∧
    (y <+: x → y = x)

/-- The text `v` goes on from `u` with a zero byte, and the next two bytes (zero where `v` has none)
    are not above the pad length that follows the pad byte of `u`. -/
def Masks (u v : List UInt8) : Prop :=
  ∃ r, v = u ++ pad :: r ∧ 256 * (r.getD 0 pad).toNat + (r.getD 1 pad).toNat ≤ maxlen - u.length

theorem padded_eq (text : List UInt8) :
    padded text = stripped text ++ List.replicate (maxlen - (stripped text).length) pad := by
  have hsplit := take_unpadded (Nat.le_refl (text.take maxlen).length)
  rw [List.take_length] at hsplit
  have hlen : (text.take maxlen).length ≤ maxlen := List.length_take_le _ _
  have hle := unpadded_le (text.take maxlen) (text.take maxlen).length
  rw [padded, hsplit, ← hsplit, stripped_length]
  nth_rewrite 1 [hsplit]
  rw [List.append_assoc, List.replicate_append_replicate]
  congr 2
  omega

/-! ## 1. Texts that part -/

/-- A string of zeros precedes one of no more bytes that has another byte. -/
theorem zeros_precede {l : List UInt8} {n : Nat} (hlen : l.length ≤ n) (hl : ∃ b ∈ l, b ≠ pad) :
    Precedes (· < ·) (List.replicate n pad) l := by
  induction l generalizing n with
  | nil =>
    obtain ⟨b, hb, -⟩ := hl
    cases hb
  | cons a l ih =>
    cases n with
    | zero => cases hlen
    | succ n =>
      rw [List.replicate_succ]
      by_cases ha : a = pad
      · subst ha
        obtain ⟨b, hb, hne⟩ := hl
        rcases List.mem_cons.mp hb with heq | hb
        · exact absurd heq hne
        · exact .tail (ih (Nat.le_of_succ_le_succ hlen) ⟨b, hb, hne⟩)
      · refine .head ?_
        rw [UInt8.lt_iff_toNat_lt]
        have : a.toNat ≠ 0 := fun h0 => ha (UInt8.toNat_inj.mp h0)
        exact Nat.pos_of_ne_zero this

/-- A text that goes on from another one stands for a greater one. -/
theorem padded_precedes {s t r : List UInt8} {c : UInt8} (h : stripped t = stripped s ++ c :: r) :
    Precedes (· < ·) (padded s) (padded t) := by
  have hlt := stripped_length_le t
  rw [h, List.length_append] at hlt
  rw [padded_eq, padded_eq, h, List.append_assoc]
  refine Precedes.cons_left _ (Precedes.mono (zeros_precede (l := c :: r) ?_ ?_) List.prefix_rfl
    (List.prefix_append _ _))
  · omega
  · -- The last byte of the longer text is not a pad byte.
    have hne : c :: r ≠ [] := List.cons_ne_nil c r
    refine ⟨(c :: r).getLast hne, List.getLast_mem hne, stripped_last t
      (u := stripped s ++ (c :: r).dropLast) ?_⟩
    rw [h, List.append_assoc, List.dropLast_append_getLast]

/-! ## 2. The law -/

theorem TextLaw.symm {x y s t : List UInt8} (h : TextLaw x y s t) : TextLaw y x t s := by
  obtain ⟨hlt, heq, hpre, hpre'⟩ := h
  refine ⟨?_, eq_comm.trans (heq.trans eq_comm), hpre', hpre⟩
  have hnot : ∀ {a b : List UInt8}, a < b ↔ ¬ (b < a) ∧ ¬ (b = a) := fun {a b} => by
    rw [← not_or, ← le_iff_lt_or_eq, not_le]
  rw [hnot, hnot (a := padded t), hlt, heq]

theorem textLaw_of_precedes {x y s t : List UInt8} (h : Precedes (· < ·) x y)
    (hp : Precedes (· < ·) (padded s) (padded t)) : TextLaw x y s t := by
  obtain ⟨-, hne, hpre, hpre'⟩ := h.apart
  exact ⟨iff_of_true h.lt hp.lt, iff_of_false hne hp.apart.2.1, fun hxy => absurd hxy hpre,
    fun hyx => absurd hyx hpre'⟩

section GoesOn

variable {s t r : List UInt8} {c : UInt8}

/-- The texts go apart after the shorter one. -/
theorem textBytes_precedes (h : stripped t = stripped s ++ c :: r) (hc : c ≠ pad) :
    Precedes (· < ·) (textBytes s) (textBytes t) := by
  have hlt : pad < c := by
    rw [UInt8.lt_iff_toNat_lt]
    exact Nat.pos_of_ne_zero fun h0 => hc (UInt8.toNat_inj.mp h0)
  refine Precedes.of_fork hlt (w := stripped s) ?_ ?_
  · exact List.prefix_append _ _
  · rw [textBytes, h]
    generalize beBytes 2 _ = z
    exact ⟨r ++ ([pad] ++ z), by simp⟩

/-- The bytes that stand where the shorter text has its pad length. -/
theorem textBytes_goesOn (h : stripped t = stripped s ++ pad :: r) :
    stripped s ++ [pad] ++ beBytes 2 (256 * (r.getD 0 pad).toNat + (r.getD 1 pad).toNat) <+:
      textBytes t := by
  have hbe : ∀ a b : UInt8, beBytes 2 (256 * a.toNat + b.toNat) = [a, b] := by
    intro a b
    have ha := a.toNat_lt
    have hb := b.toNat_lt
    change [UInt8.ofNat ((256 * a.toNat + b.toNat) / 256 % 256),
      UInt8.ofNat ((256 * a.toNat + b.toNat) % 256)] = [a, b]
    rw [show (256 * a.toNat + b.toNat) / 256 % 256 = a.toNat by omega,
      show (256 * a.toNat + b.toNat) % 256 = b.toNat by omega, UInt8.ofNat_toNat, UInt8.ofNat_toNat]
  rw [hbe, textBytes]
  generalize beBytes 2 _ = z
  cases r with
  | nil => exact absurd rfl (stripped_last t h)
  | cons a r =>
    rw [h]
    cases r with
    | nil => exact ⟨z, by simp⟩
    | cons b r => exact ⟨r ++ ([pad] ++ z), by simp⟩

/-- One text goes on from the other. -/
theorem textLaw_of_goesOn (h : stripped t = stripped s ++ c :: r) :
    TextLaw (textBytes s) (textBytes t) s t ↔ ¬ Masks (stripped s) (stripped t) := by
  have hp := padded_precedes h
  by_cases hc : c = pad
  · subst hc
    have hgoes := textBytes_goesOn h
    have hmax : maxlen = 65532 := rfl
    have ha := (r.getD 0 pad).toNat_lt
    have hb := (r.getD 1 pad).toNat_lt
    have hmasks : Masks (stripped s) (stripped t) ↔
        256 * (r.getD 0 pad).toNat + (r.getD 1 pad).toNat ≤ maxlen - (stripped s).length := by
      constructor
      · rintro ⟨r', hr', hle⟩
        rw [h, List.append_cancel_left_eq, List.cons.injEq] at hr'
        rwa [hr'.2]
      · exact fun hle => ⟨r, h, hle⟩
    generalize hq : 256 * (r.getD 0 pad).toNat + (r.getD 1 pad).toNat = q at hmasks hgoes
    have hself : textBytes s = stripped s ++ [pad] ++ beBytes 2 (maxlen - (stripped s).length) := rfl
    rw [hmasks]
    rcases Nat.lt_trichotomy q (maxlen - (stripped s).length) with hlt | heq | hgt
    · -- The encoding of the longer text comes first.
      refine iff_of_false ?_ (by omega)
      have hback : Precedes (· < ·) (textBytes t) (textBytes s) :=
        (Precedes.cons_left _ (beBytes_precedes (by omega) (by omega) hlt)).mono hgoes
          (hself ▸ List.prefix_rfl)
      exact fun hlaw => hback.apart.1 (hlaw.1.mpr hp.lt)
    · -- The encoding of the shorter text is a part of the other.
      refine iff_of_false ?_ (by omega)
      rw [heq, ← hself] at hgoes
      exact fun hlaw => hp.apart.2.1 (hlaw.2.1.mp (hlaw.2.2.1 hgoes))
    · refine iff_of_true (textLaw_of_precedes ?_ hp) (by omega)
      exact (Precedes.cons_left _ (beBytes_precedes (by omega) (by omega) hgt)).mono
        (hself ▸ List.prefix_rfl) hgoes
  · refine iff_of_true (textLaw_of_precedes (textBytes_precedes h hc) hp) ?_
    rintro ⟨r', hr', -⟩
    rw [h, List.append_cancel_left_eq, List.cons.injEq] at hr'
    exact hc hr'.1

end GoesOn

/-- A text does not go on from a longer one. -/
theorem not_masks_of_length_le {u v : List UInt8} (h : v.length ≤ u.length) : ¬ Masks u v := by
  rintro ⟨r, rfl, -⟩
  rw [List.length_append, List.length_cons] at h
  omega

theorem textLaw_iff (s t : List UInt8) :
    TextLaw (textBytes s) (textBytes t) s t ↔
      ¬ Masks (stripped s) (stripped t) ∧ ¬ Masks (stripped t) (stripped s) := by
  have hsplit : ∀ {u v : List UInt8}, u <+: v → u ≠ v → ∃ c r, v = u ++ c :: r := by
    rintro u v ⟨w, rfl⟩ hne
    cases w with
    | nil => exact absurd (List.append_nil u).symm hne
    | cons c r => exact ⟨c, r, rfl⟩
  by_cases heq : stripped s = stripped t
  · have hbytes : textBytes s = textBytes t := by rw [textBytes, textBytes, heq]
    have hpad : padded s = padded t := by rw [padded_eq, padded_eq, heq]
    rw [hbytes, heq]
    refine iff_of_true ?_ ⟨not_masks_of_length_le (Nat.le_refl _),
      not_masks_of_length_le (Nat.le_refl _)⟩
    rw [TextLaw, hpad]
    exact ⟨iff_of_false (lt_irrefl _) (lt_irrefl _), iff_of_true rfl rfl, fun _ => rfl, fun _ => rfl⟩
  by_cases hst : stripped s <+: stripped t
  · obtain ⟨c, r, h⟩ := hsplit hst heq
    rw [textLaw_of_goesOn h, iff_self_and]
    exact fun _ => not_masks_of_length_le hst.length_le
  by_cases hts : stripped t <+: stripped s
  · obtain ⟨c, r, h⟩ := hsplit hts (Ne.symm heq)
    rw [show TextLaw (textBytes s) (textBytes t) s t ↔ _ from ⟨TextLaw.symm, TextLaw.symm⟩,
      textLaw_of_goesOn h, iff_and_self]
    exact fun _ => not_masks_of_length_le hts.length_le
  · have hmasks : ∀ {u v : List UInt8}, ¬ u <+: v → ¬ Masks u v := by
      rintro u v hne ⟨r, rfl, -⟩
      exact hne (List.prefix_append _ _)
    refine iff_of_true ?_ ⟨hmasks hst, hmasks hts⟩
    have hpart : ∀ {a b}, Precedes (· < ·) (stripped a) (stripped b) →
        TextLaw (textBytes a) (textBytes b) a b := by
      intro a b hab
      refine textLaw_of_precedes ?_ ?_
      · rw [textBytes, textBytes, List.append_assoc, List.append_assoc]
        exact hab.append _ _
      · rw [padded_eq, padded_eq]
        exact hab.append _ _
    rcases precedes_or_precedes (fun a b => lt_or_gt_of_ne) hst hts with h | h
    · exact hpart h
    · exact (hpart h).symm

/-- Whatever the encoders were used for before: they order two texts as the padded texts are
    ordered exactly when neither text masks the pad length of the other. -/
theorem encodeText_law_iff (e e' : KeyEncoder) (s t : List UInt8) :
    ∃ es et, e.reset.encodeText s = .ok es ∧ e'.reset.encodeText t = .ok et ∧
      (TextLaw es.getKeyView et.getKeyView s t ↔
        ¬ Masks (stripped s) (stripped t) ∧ ¬ Masks (stripped t) (stripped s)) := by
  obtain ⟨es, hes, hviews⟩ := e.reset.encodeText_spec s
  obtain ⟨et, het, hviewt⟩ := e'.reset.encodeText_spec t
  refine ⟨es, et, hes, het, ?_⟩
  rw [hviews, hviewt, getKeyView_reset, getKeyView_reset, List.nil_append, List.nil_append]
  exact textLaw_iff s t

/-- The empty text and the text of a zero byte and a one. -/
theorem encodeText_law_fails :
    ∃ es et, (new (List.replicate 256 0)).encodeText [] = .ok es ∧
      (new (List.replicate 256 0)).encodeText [0, 1] = .ok et ∧
      padded [] < padded [0, 1] ∧ et.getKeyView < es.getKeyView := by
  obtain ⟨es, hes, hviews⟩ := (new (List.replicate 256 0)).encodeText_spec []
  obtain ⟨et, het, hviewt⟩ := (new (List.replicate 256 0)).encodeText_spec [0, 1]
  refine ⟨es, et, hes, het, ?_, ?_⟩
  · exact (padded_precedes (c := 0) (r := [1]) (by decide)).lt
  · rw [hviews, hviewt]
    decide

end KeyEncoder

end Unodb
