import Unodb.Encode.Text
import Unodb.Encode.Number

/-!
# Compound keys

Keys of several components are ordered component by component, and keys of numbers are decoded to
the numbers they were made of.
-/

open Endian

namespace Unodb

open KeyEncoder

/-! ## 1. The order of components -/

/-- The type of a component. -/
inductive ComponentType where
  | number (type : NumType)
  | text
deriving DecidableEq, Repr

namespace Component

def type : Component → ComponentType
  | .number n => .number n.type
  | .text _ => .text

/-- The order of components of one type; a text counts up to its `maxlen`-th byte. -/
def Lt : Component → Component → Prop
  | .number a, .number b => a.Lt b
  | .text s, .text t => s.take maxlen < t.take maxlen
  | _, _ => False

/-- Components of one type that no order tells apart. -/
def Eqv : Component → Component → Prop
  | .number a, .number b => a.Eqv b
  | .text s, .text t => s.take maxlen = t.take maxlen
  | _, _ => False

/-- A text component has no zero byte. -/
def NoNul : Component → Prop
  | .number _ => True
  | .text t => pad ∉ t

end Component

/-- Componentwise lexicographic order. -/
def KeyLt : List Component → List Component → Prop
  | a :: as, b :: bs => a.Lt b ∨ (a.Eqv b ∧ KeyLt as bs)
  | _, _ => False

def KeyEqv : List Component → List Component → Prop
  | a :: as, b :: bs => a.Eqv b ∧ KeyEqv as bs
  | [], [] => True
  | _, _ => False

/-- A text without zero bytes is encoded in full, up to `maxlen` bytes. -/
theorem stripped_of_noNul {t : List UInt8} (ht : pad ∉ t) : stripped t = t.take maxlen := by
  have hsplit := take_unpadded (Nat.le_refl (t.take maxlen).length)
  rw [List.take_length] at hsplit
  have hle := unpadded_le (t.take maxlen) (t.take maxlen).length
  rw [stripped, List.take_of_length_le]
  by_contra hlt
  -- A pad byte was left out, so the text has one.
  have hmem : pad ∈ t.take maxlen := by
    rw [hsplit]
    exact List.mem_append_right _ (List.mem_replicate.mpr ⟨by omega, rfl⟩)
  exact ht (List.mem_of_mem_take hmem)

theorem textBytes_precedes_of_lt {s t : List UInt8} (hs : pad ∉ s) (ht : pad ∉ t)
    (h : s.take maxlen < t.take maxlen) : Precedes (· < ·) (textBytes s) (textBytes t) := by
  have hss := stripped_of_noNul hs
  have htt := stripped_of_noNul ht
  rw [← hss, ← htt] at h
  by_cases hst : stripped s <+: stripped t
  · obtain ⟨w, hw⟩ := hst
    cases w with
    | nil =>
      rw [List.append_nil] at hw
      exact absurd h (by rw [hw]; exact lt_irrefl _)
    | cons c r =>
      refine textBytes_precedes hw.symm ?_
      rintro rfl
      have hmem : pad ∈ t.take maxlen := by
        rw [← htt, ← hw]
        simp
      exact ht (List.mem_of_mem_take hmem)
  · have happ : ∀ {a b : List UInt8}, Precedes (· < ·) (stripped a) (stripped b) →
        Precedes (· < ·) (textBytes a) (textBytes b) := by
      intro a b hab
      rw [textBytes, textBytes, List.append_assoc, List.append_assoc]
      exact hab.append _ _
    by_cases hts : stripped t <+: stripped s
    · exact absurd h hts.le
    · rcases precedes_or_precedes (fun a b => lt_or_gt_of_ne) hst hts with hp | hp
      · exact happ hp
      · exact absurd h hp.apart.1

theorem numberBytes_precedes {a b : Number} (htype : a.type = b.type) (h : a.Lt b) :
    Precedes (· < ·) (numberBytes a) (numberBytes b) := by
  rw [Number.lt_iff htype] at h
  obtain ⟨type, v⟩ := a
  obtain ⟨type', v'⟩ := b
  cases htype
  exact beBytes_precedes (toNat_lt _ _) (toNat_lt _ _) h

namespace Component

variable {a b : Component}

theorem bytes_precedes (htype : a.type = b.type) (ha : a.NoNul) (hb : b.NoNul) (h : a.Lt b) :
    Precedes (· < ·) (componentBytes a) (componentBytes b) := by
  cases a with
  | number n =>
    cases b with
    | number n' => exact numberBytes_precedes (ComponentType.number.inj htype) h
    | text t => cases htype
  | text s =>
    cases b with
    | number n' => cases htype
    | text t => exact textBytes_precedes_of_lt ha hb h

theorem bytes_eq (htype : a.type = b.type) (ha : a.NoNul) (hb : b.NoNul) (h : a.Eqv b) :
    componentBytes a = componentBytes b := by
  cases a with
  | number n =>
    cases b with
    | number n' =>
      have hn : n.type = n'.type := ComponentType.number.inj htype
      have hkey := (Number.eqv_iff hn).mp h
      obtain ⟨type, v⟩ := n
      obtain ⟨type', v'⟩ := n'
      cases hn
      exact congrArg (beBytes type.word.bytes) hkey
    | text t => cases htype
  | text s =>
    cases b with
    | number n' => cases htype
    | text t =>
      have hst : stripped s = stripped t := by
        rw [stripped_of_noNul ha, stripped_of_noNul hb]
        exact h
      change textBytes s = textBytes t
      rw [textBytes, textBytes, hst]

theorem trichotomy (htype : a.type = b.type) : a.Lt b ∨ a.Eqv b ∨ b.Lt a := by
  cases a with
  | number n =>
    cases b with
    | number n' =>
      have hn : n.type = n'.type := ComponentType.number.inj htype
      change n.Lt n' ∨ n.Eqv n' ∨ n'.Lt n
      rw [Number.lt_iff hn, Number.eqv_iff hn, Number.lt_iff hn.symm]
      exact Nat.lt_trichotomy _ _
    | text t => cases htype
  | text s =>
    cases b with
    | number n' => cases htype
    | text t => exact lt_trichotomy _ _

theorem Eqv.symm (htype : a.type = b.type) (h : a.Eqv b) : b.Eqv a := by
  cases a with
  | number n =>
    cases b with
    | number n' =>
      have hn : n.type = n'.type := ComponentType.number.inj htype
      exact (Number.eqv_iff hn.symm).mpr ((Number.eqv_iff hn).mp h).symm
    | text t => cases htype
  | text s =>
    cases b with
    | number n' => cases htype
    | text t => exact Eq.symm h

end Component

/-! ## 2. The order of keys -/

section Keys

variable {as bs : List Component}

theorem keyBytes_precedes (hschema : as.map Component.type = bs.map Component.type)
    (ha : ∀ c ∈ as, c.NoNul) (hb : ∀ c ∈ bs, c.NoNul) (h : KeyLt as bs) :
    Precedes (· < ·) (keyBytes as) (keyBytes bs) := by
  induction as generalizing bs with
  | nil => cases h
  | cons a as ih =>
    cases bs with
    | nil => cases h
    | cons b bs =>
      rw [List.map_cons, List.map_cons, List.cons.injEq] at hschema
      have hna := ha a List.mem_cons_self
      have hnb := hb b List.mem_cons_self
      simp only [keyBytes, List.flatMap_cons]
      rcases h with hlt | ⟨heqv, hlt⟩
      · exact (Component.bytes_precedes hschema.1 hna hnb hlt).append _ _
      · rw [Component.bytes_eq hschema.1 hna hnb heqv]
        exact Precedes.cons_left _ (ih hschema.2 (fun c hc => ha c (List.mem_cons_of_mem a hc))
          (fun c hc => hb c (List.mem_cons_of_mem b hc)) hlt)

theorem keyBytes_eq (hschema : as.map Component.type = bs.map Component.type)
    (ha : ∀ c ∈ as, c.NoNul) (hb : ∀ c ∈ bs, c.NoNul) (h : KeyEqv as bs) :
    keyBytes as = keyBytes bs := by
  induction as generalizing bs with
  | nil =>
    cases bs with
    | nil => rfl
    | cons b bs => cases h
  | cons a as ih =>
    cases bs with
    | nil => cases h
    | cons b bs =>
      rw [List.map_cons, List.map_cons, List.cons.injEq] at hschema
      simp only [keyBytes, List.flatMap_cons]
      rw [Component.bytes_eq hschema.1 (ha a List.mem_cons_self) (hb b List.mem_cons_self) h.1]
      exact congrArg _ (ih hschema.2 (fun c hc => ha c (List.mem_cons_of_mem a hc))
        (fun c hc => hb c (List.mem_cons_of_mem b hc)) h.2)

theorem keyLt_trichotomy (hschema : as.map Component.type = bs.map Component.type) :
    KeyLt as bs ∨ KeyEqv as bs ∨ KeyLt bs as := by
  induction as generalizing bs with
  | nil =>
    cases bs with
    | nil => exact .inr (.inl trivial)
    | cons b bs => cases hschema
  | cons a as ih =>
    cases bs with
    | nil => cases hschema
    | cons b bs =>
      rw [List.map_cons, List.map_cons, List.cons.injEq] at hschema
      rcases Component.trichotomy hschema.1 with h | h | h
      · exact .inl (.inl h)
      · rcases ih hschema.2 with h' | h' | h'
        · exact .inl (.inr ⟨h, h'⟩)
        · exact .inr (.inl ⟨h, h'⟩)
        · exact .inr (.inr (.inr ⟨h.symm hschema.1, h'⟩))
      · exact .inr (.inr (.inl h))

/-- Keys compare as their components do. -/
theorem keyBytes_law (hschema : as.map Component.type = bs.map Component.type)
    (ha : ∀ c ∈ as, c.NoNul) (hb : ∀ c ∈ bs, c.NoNul) :
    (keyBytes as < keyBytes bs ↔ KeyLt as bs) ∧ (keyBytes as = keyBytes bs ↔ KeyEqv as bs) ∧
      (keyBytes as <+: keyBytes bs → keyBytes as = keyBytes bs) ∧
      (keyBytes bs <+: keyBytes as → keyBytes bs = keyBytes as) := by
  have hlt : KeyLt as bs → Precedes (· < ·) (keyBytes as) (keyBytes bs) :=
    keyBytes_precedes hschema ha hb
  have hgt : KeyLt bs as → Precedes (· < ·) (keyBytes bs) (keyBytes as) :=
    keyBytes_precedes hschema.symm hb ha
  have heq : KeyEqv as bs → keyBytes as = keyBytes bs := keyBytes_eq hschema ha hb
  rcases keyLt_trichotomy hschema with h | h | h
  · obtain ⟨-, hne, hpre, hpre'⟩ := (hlt h).apart
    exact ⟨iff_of_true (hlt h).lt h, iff_of_false hne (fun h' => hne (heq h')),
      fun hp => absurd hp hpre, fun hp => absurd hp hpre'⟩
  · refine ⟨iff_of_false ?_ ?_, iff_of_true (heq h) h, fun _ => heq h, fun _ => (heq h).symm⟩
    · rw [heq h]
      exact lt_irrefl _
    · exact fun h' => (hlt h').apart.2.1 (heq h)
  · obtain ⟨hnlt, hne, hpre, hpre'⟩ := (hgt h).apart
    refine ⟨iff_of_false hnlt fun h' => hnlt (hlt h').lt,
      iff_of_false hne.symm fun h' => hne (heq h').symm, fun hp => absurd hp hpre',
      fun hp => absurd hp hpre⟩

/-- Whatever the encoders were used for before and however often their buffers grow, the keys of two
    tuples of one schema compare as the tuples do, and neither is a proper prefix of the other. -/
theorem encodeAll_law (e e' : KeyEncoder) (a b : List Component)
    (hschema : a.map Component.type = b.map Component.type) (ha : ∀ c ∈ a, c.NoNul)
    (hb : ∀ c ∈ b, c.NoNul) :
    ∃ ea eb, e.reset.encodeAll a = .ok ea ∧ e'.reset.encodeAll b = .ok eb ∧
      (ea.getKeyView < eb.getKeyView ↔ KeyLt a b) ∧
      (ea.getKeyView = eb.getKeyView ↔ KeyEqv a b) ∧
      (ea.getKeyView <+: eb.getKeyView → ea.getKeyView = eb.getKeyView) ∧
      (eb.getKeyView <+: ea.getKeyView → eb.getKeyView = ea.getKeyView) := by
  obtain ⟨ea, hea, hviewa⟩ := e.reset.encodeAll_spec a
  obtain ⟨eb, heb, hviewb⟩ := e'.reset.encodeAll_spec b
  refine ⟨ea, eb, hea, heb, ?_⟩
  rw [hviewa, hviewb, getKeyView_reset, getKeyView_reset, List.nil_append, List.nil_append]
  exact keyBytes_law hschema ha hb

/-- The same text with the numbers -1 and 1 behind it. -/
theorem encodeAll_law_two :
    ∃ ea eb, (new (List.replicate 256 0)).reset.encodeAll
        [.text [0x61], .number ⟨.signed .b8, 0xFF⟩] = .ok ea ∧
      (new (List.replicate 256 0)).reset.encodeAll
        [.text [0x61], .number ⟨.signed .b8, 0x01⟩] = .ok eb ∧ ea.getKeyView < eb.getKeyView := by
  obtain ⟨ea, eb, hea, heb, hlt, -⟩ := encodeAll_law (new (List.replicate 256 0))
    (new (List.replicate 256 0)) [.text [0x61], .number ⟨.signed .b8, 0xFF⟩]
    [.text [0x61], .number ⟨.signed .b8, 0x01⟩] rfl
    (by simp [Component.NoNul, pad]) (by simp [Component.NoNul, pad])
  refine ⟨ea, eb, hea, heb, hlt.mpr (.inr ⟨rfl, .inl ?_⟩)⟩
  change (0xFF : BitVec 8).toInt < (0x01 : BitVec 8).toInt
  decide

end Keys

/-! ## 3. Decoding -/

theorem wordBytes_inj {w : IntWidth} {u v : BitVec w.bits} (h : wordBytes w u = wordBytes w v) :
    u = v :=
  BitVec.eq_of_toNat_eq (beBytes_inj (toNat_lt w u) (toNat_lt w v) h)

namespace KeyDecoder

variable {x y z : List UInt8}

/-- What is read next, and that it is there. -/
theorem read_spec (x y z : List UInt8) :
    (⟨x ++ (y ++ z), x.length⟩ : KeyDecoder).read y.length =
      .ok (y, ⟨x ++ (y ++ z), x.length + y.length⟩) := by
  rw [read, if_pos (by simp only [List.length_append]; omega), List.drop_left, List.take_left]

theorem decodeUnsigned_spec {w : IntWidth} (hy : y.length = w.bytes) :
    ∃ u, (⟨x ++ (y ++ z), x.length⟩ : KeyDecoder).decodeUnsigned w =
        .ok (u, ⟨x ++ (y ++ z), x.length + y.length⟩) ∧ wordBytes w u = y := by
  rw [decodeUnsigned, ← hy, read_spec]
  refine ⟨_, rfl, ?_⟩
  have hlt : (if w = .b8 then ofLeBytes y else Endian.bswap y.length (ofLeBytes y)) < 2 ^ w.bits := by
    rw [bits_pow, ← hy]
    split
    · exact ofLeBytes_lt y
    · exact bswap_lt _ _
  rw [wordBytes, BitVec.toNat_ofNat, Nat.mod_eq_of_lt hlt, ← hy]
  split
  · rename_i hw
    subst hw
    -- One byte is its own reversal.
    obtain ⟨b, rfl⟩ := List.length_eq_one_iff.mp hy
    exact leBytes_ofLeBytes [b]
  · exact beBytes_bswap_ofLeBytes y

/-- The bytes of each number, when the key has numbers of the given types. -/
def slices : List NumType → List UInt8 → List (List UInt8)
  | [], _ => []
  | type :: types, bytes => bytes.take type.word.bytes :: slices types (bytes.drop type.word.bytes)

/-- The number of bytes of a key that has numbers of the given types. -/
def totalSize (types : List NumType) : Nat := (types.map fun type => type.word.bytes).sum

theorem decodeAll_spec {types : List NumType} (hy : y.length = totalSize types) :
    ∃ ns, (⟨x ++ y, x.length⟩ : KeyDecoder).decodeAll types =
        .ok (ns, ⟨x ++ y, x.length + y.length⟩) ∧
      List.Forall₂ (fun n slice => ∃ u : BitVec n.type.word.bits, wordBytes n.type.word u = slice ∧
        n.bits = decodeWord n.type u) ns (slices types y) ∧ ns.map Number.type = types := by
  induction types generalizing x y with
  | nil =>
    rw [totalSize, List.map_nil, List.sum_nil] at hy
    rw [List.eq_nil_of_length_eq_zero hy]
    exact ⟨[], rfl, .nil, rfl⟩
  | cons type types ih =>
    rw [totalSize, List.map_cons, List.sum_cons] at hy
    have hlen : (y.take type.word.bytes).length = type.word.bytes := by
      rw [List.length_take]
      omega
    obtain ⟨u, hu, hbytes⟩ := decodeUnsigned_spec (x := x) (z := y.drop type.word.bytes) hlen
    rw [List.take_append_drop] at hu
    obtain ⟨ns, hns, hall, htypes⟩ := ih (x := x ++ y.take type.word.bytes)
      (y := y.drop type.word.bytes) (by rw [List.length_drop, totalSize]; omega)
    rw [List.append_assoc, List.take_append_drop, List.length_append] at hns
    refine ⟨⟨type, decodeWord type u⟩ :: ns, ?_, .cons ⟨u, hbytes, rfl⟩ hall, by rw [List.map_cons, htypes]⟩
    rw [decodeAll, decode, hu]
    simp only [bind, Except.bind, pure, Except.pure, hns]
    rw [List.length_drop, hlen]
    congr 3
    omega

theorem slices_keyBytes (ns : List Number) :
    slices (ns.map Number.type) (keyBytes (ns.map .number)) = ns.map numberBytes := by
  induction ns with
  | nil => rfl
  | cons n ns ih =>
    have hlen : (numberBytes n).length = n.type.word.bytes := wordBytes_length _ _
    have hcons : keyBytes ((n :: ns).map .number) = numberBytes n ++ keyBytes (ns.map .number) := rfl
    rw [hcons, List.map_cons, slices, ← hlen, List.take_left, List.drop_left, ih, List.map_cons]

theorem keyBytes_length (ns : List Number) :
    (keyBytes (ns.map .number)).length = totalSize (ns.map Number.type) := by
  induction ns with
  | nil => rfl
  | cons n ns ih =>
    have hlen : (numberBytes n).length = n.type.word.bytes := wordBytes_length _ _
    have hcons : keyBytes ((n :: ns).map .number) = numberBytes n ++ keyBytes (ns.map .number) := rfl
    rw [hcons, List.length_append, hlen, ih]
    rfl

/-- Numbers that were decoded from the bytes of numbers are these numbers. -/
theorem eq_of_slices {ms ns : List Number} (htypes : ms.map Number.type = ns.map Number.type)
    (h : List.Forall₂ (fun m slice => ∃ u : BitVec m.type.word.bits,
      wordBytes m.type.word u = slice ∧ m.bits = decodeWord m.type u) ms (ns.map numberBytes)) :
    ms = ns.map Number.canonical := by
  induction ns generalizing ms with
  | nil =>
    cases h
    rfl
  | cons n ns ih =>
    cases h with
    | @cons m _ ms _ hm hms =>
      rw [List.map_cons, List.map_cons, List.cons.injEq] at htypes
      rw [List.map_cons, ih htypes.2 hms]
      congr 1
      obtain ⟨u, hu, hbits⟩ := hm
      obtain ⟨type, v⟩ := m
      obtain ⟨type', v'⟩ := n
      cases htypes.1
      rw [← decodeWord_encodeWord]
      simp only at hbits
      rw [hbits, wordBytes_inj hu]

/-- Numbers are decoded from the key they were encoded in, and a key is what its numbers are encoded
    as again where their types are integers or their bytes come from an encoder. -/
theorem decodeAll_inverse :
    (∀ (e : KeyEncoder) (ns : List Number), ∃ e', e.reset.encodeAll (ns.map .number) = .ok e' ∧
      (⟨e'.getKeyView, 0⟩ : KeyDecoder).decodeAll (ns.map Number.type) =
        .ok (ns.map Number.canonical, ⟨e'.getKeyView, e'.getKeyView.length⟩)) ∧
    ∀ (types : List NumType) (bytes : List UInt8), bytes.length = totalSize types →
      ∃ ns, (⟨bytes, 0⟩ : KeyDecoder).decodeAll types = .ok (ns, ⟨bytes, bytes.length⟩) ∧
        ns.map Number.type = types ∧
        List.Forall₂ (fun n slice =>
          (n.type ≠ .float ∧ n.type ≠ .double) ∨ (∃ v, numberBytes ⟨n.type, v⟩ = slice) →
          ∀ e : KeyEncoder, ∃ e', e.reset.encode n = .ok e' ∧ e'.getKeyView = slice)
          ns (slices types bytes) := by
  constructor
  · intro e ns
    obtain ⟨e', he', hview⟩ := e.reset.encodeAll_spec (ns.map .number)
    rw [getKeyView_reset, List.nil_append] at hview
    refine ⟨e', he', ?_⟩
    rw [hview]
    obtain ⟨ms, hms, hall, htypes⟩ := decodeAll_spec (x := []) (keyBytes_length ns)
    rw [slices_keyBytes] at hall
    rw [List.nil_append, List.length_nil, Nat.zero_add, eq_of_slices htypes hall] at hms
    exact hms
  · intro types bytes hlen
    obtain ⟨ns, hns, hall, htypes⟩ := decodeAll_spec (x := []) hlen
    rw [List.nil_append, List.length_nil, Nat.zero_add] at hns
    refine ⟨ns, hns, htypes, hall.imp ?_⟩
    rintro n slice ⟨u, hu, hbits⟩ hint e
    obtain ⟨e', he', hview⟩ := e.reset.encodeUnsigned_spec n.type.word (encodeWord n.type n.bits)
    refine ⟨e', he', ?_⟩
    rw [hview, getKeyView_reset, List.nil_append, hbits, ← hu]
    rcases hint with hint | ⟨v, hv⟩
    · rw [encodeWord_decodeWord hint]
    · rw [← hu] at hv
      rw [← wordBytes_inj hv]
      exact congrArg _ (encodeWord_decodeWord_encodeWord ⟨n.type, v⟩)

end KeyDecoder

end Unodb
