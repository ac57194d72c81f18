import Unodb.Node.Dense

/-!
# The byte table of `basic_inode_48` and the copy loops of the larger nodes

A `basic_inode_48` maps a key byte to a slot through a table of 256 bytes.  The loops that copy
between it and its two neighbouring node types visit the bytes in order.
-/

open Words Arrays

namespace Unodb

variable {P : Type}

/-! ## 1. Visiting all bytes -/

theorem mem_allBytes (b : UInt8) : b ∈ allBytes := by
  rw [allBytes, List.mem_map]
  exact ⟨b.toNat, List.mem_range.mpr b.toNat_lt, UInt8.ofNat_toNat⟩

theorem allBytes_pairwise : allBytes.Pairwise (· < ·) := by
  rw [allBytes, List.pairwise_map]
  refine List.Pairwise.imp_of_mem (fun {i j} hi hj hij => ?_) List.pairwise_lt_range
  rw [List.mem_range] at hi hj
  rw [UInt8.lt_iff_toNat_lt, UInt8.toNat_ofNat', UInt8.toNat_ofNat']
  omega

theorem allBytes_nodup : allBytes.Nodup := allBytes_pairwise.imp fun h => ne_of_lt h

/-- The bytes a map binds, in order. -/
def boundBytes (f : UInt8 → Option P) : List UInt8 := allBytes.filter fun b => (f b).isSome

theorem boundBytes_length (f : UInt8 → Option P) : (boundBytes f).length = degree f := by
  rw [degree, boundBytes, ← List.toFinset_card_of_nodup (allBytes_nodup.filter _)]
  congr 1
  ext b
  simp [mem_allBytes]

/-- A map laid out in byte order. -/
theorem DenseRep.of_boundBytes (f : UInt8 → Option P) :
    DenseRep (degree f) (boundBytes f) ((boundBytes f).map f) (degree f) f where
  keys_length := boundBytes_length f
  children_length := by rw [List.length_map, boundBytes_length]
  count_le := le_rfl
  sorted := by
    intro i j a b hij hj ha hb
    obtain ⟨hi', rfl⟩ := List.getElem?_eq_some_iff.mp ha
    obtain ⟨hj', rfl⟩ := List.getElem?_eq_some_iff.mp hb
    exact List.pairwise_iff_getElem.mp (allBytes_pairwise.filter _) i j hi' hj' hij
  defined := by
    intro i hi
    rw [← boundBytes_length] at hi
    have hmem := List.getElem_mem hi
    simp only [boundBytes, List.mem_filter] at hmem
    obtain ⟨p, hp⟩ := Option.isSome_iff_exists.mp hmem.2
    refine ⟨p, ?_⟩
    rw [List.getElem?_map, List.getElem?_eq_getElem hi, Option.map_some]
    exact congrArg some hp
  spec := by
    intro b p
    constructor
    · intro hp
      have hmem : b ∈ boundBytes f := by simp [boundBytes, mem_allBytes, hp]
      obtain ⟨i, hi, hget⟩ := List.mem_iff_getElem.mp hmem
      refine ⟨i, by rwa [boundBytes_length] at hi, ?_, ?_⟩
      · rw [List.getElem?_eq_getElem hi, hget]
      · rw [List.getElem?_map, List.getElem?_eq_getElem hi, hget, Option.map_some, hp]
    · rintro ⟨i, hi, hb, hp⟩
      rw [List.getElem?_map, hb, Option.map_some, Option.some_inj] at hp
      exact hp

/-! ## 2. The byte table -/

/-- The table and the 48 pointers are the graph of `f`. -/
structure SparseRep (childIndexes : UInt8 → UInt8) (children : List (Option P))
    (f : UInt8 → Option P) : Prop where
  children_length : children.length = 48
  empty : ∀ {b}, childIndexes b = emptyChild → f b = none
  bound : ∀ {b}, childIndexes b ≠ emptyChild →
    ∃ p, children[(childIndexes b).toNat]? = some (some p) ∧ f b = some p
  inj : ∀ {b b'}, childIndexes b ≠ emptyChild → childIndexes b = childIndexes b' → b = b'
  onto : ∀ {i p}, children[i]? = some (some p) → ∃ b, (childIndexes b).toNat = i

namespace SparseRep

variable {childIndexes : UInt8 → UInt8} {children : List (Option P)} {f : UInt8 → Option P}

theorem eq_none_iff (h : SparseRep childIndexes children f) (b : UInt8) :
    f b = none ↔ childIndexes b = emptyChild := by
  constructor
  · intro hb
    by_contra hne
    obtain ⟨p, -, hp⟩ := h.bound hne
    rw [hb] at hp
    cases hp
  · exact h.empty

theorem index_lt (h : SparseRep childIndexes children f) {b : UInt8}
    (hb : childIndexes b ≠ emptyChild) : (childIndexes b).toNat < 48 := by
  obtain ⟨p, hp, -⟩ := h.bound hb
  have := (List.getElem?_eq_some_iff.mp hp).1
  rwa [h.children_length] at this

/-- A node that is not full has a free slot. -/
theorem exists_free (h : SparseRep childIndexes children f) (hdeg : degree f < 48) :
    ∃ i < 48, children[i]? = some none := by
  by_contra hfull
  push Not at hfull
  have hsome : ∀ i : Fin 48, ∃ b, (childIndexes b).toNat = i.val := by
    intro i
    have hi : i.val < children.length := by
      rw [h.children_length]
      exact i.isLt
    cases hget : children[i.val] with
    | none => exact absurd (by rw [List.getElem?_eq_getElem hi, hget]) (hfull i.val i.isLt)
    | some p => exact h.onto (p := p) (by rw [List.getElem?_eq_getElem hi, hget])
  choose g hg using hsome
  have hinj : Function.Injective g := by
    intro i j hij
    apply Fin.ext
    rw [← hg i, ← hg j, hij]
  have hle : (Finset.univ.image g).card ≤ degree f := by
    apply Finset.card_le_card
    intro b hb
    obtain ⟨i, -, rfl⟩ := Finset.mem_image.mp hb
    have hne : childIndexes (g i) ≠ emptyChild := by
      intro heq
      have hval := hg i
      rw [heq] at hval
      have := i.isLt
      simp only [emptyChild] at hval
      have h255 : (0xFF : UInt8).toNat = 255 := rfl
      omega
    obtain ⟨p, -, hp⟩ := h.bound hne
    simp [hp]
  rw [Finset.card_image_of_injective _ hinj, Finset.card_univ, Fintype.card_fin] at hle
  omega

theorem findIdx_free (h : SparseRep childIndexes children f) (hdeg : degree f < 48) :
    children.findIdx (·.isNone) < 48 ∧ children[children.findIdx (·.isNone)]? = some none := by
  obtain ⟨i, hi, hfree⟩ := h.exists_free hdeg
  obtain ⟨hi', hnone⟩ := List.getElem?_eq_some_iff.mp hfree
  have hlt : children.findIdx (·.isNone) < children.length :=
    List.findIdx_lt_length_of_exists ⟨none, by rw [← hnone]; exact List.getElem_mem hi', rfl⟩
  have hval := List.findIdx_getElem (w := hlt)
  rw [Option.isNone_iff_eq_none] at hval
  exact ⟨by rwa [h.children_length] at hlt, by rw [List.getElem?_eq_getElem hlt, hval]⟩

theorem insert (h : SparseRep childIndexes children f) {b : UInt8} {i : Nat}
    (hb : childIndexes b = emptyChild) (hi : i < 48) (hfree : children[i]? = some none) (p : P) :
    SparseRep (Function.update childIndexes b (UInt8.ofNat i)) (children.set i (some p))
      (Function.update f b (some p)) := by
  have hval : (UInt8.ofNat i).toNat = i := by
    rw [UInt8.toNat_ofNat']
    omega
  have hne : UInt8.ofNat i ≠ emptyChild := by
    intro heq
    rw [heq] at hval
    have h255 : emptyChild.toNat = 255 := rfl
    omega
  -- No other byte uses the free slot.
  have hother : ∀ {b'}, childIndexes b' ≠ emptyChild → (childIndexes b').toNat ≠ i := by
    intro b' hb' heq
    obtain ⟨q, hq, -⟩ := h.bound hb'
    rw [heq, hfree] at hq
    cases hq
  have hlen : i < children.length := by
    rw [h.children_length]
    exact hi
  refine ⟨by rw [List.length_set, h.children_length], ?_, ?_, ?_, ?_⟩
  · intro b' hb'
    by_cases heq : b' = b
    · subst heq
      rw [Function.update_self] at hb'
      exact absurd hb' hne
    · rw [Function.update_of_ne heq] at hb' ⊢
      exact h.empty hb'
  · intro b' hb'
    by_cases heq : b' = b
    · subst heq
      rw [Function.update_self, Function.update_self, hval, List.getElem?_set_self hlen]
      exact ⟨p, rfl, rfl⟩
    · rw [Function.update_of_ne heq] at hb' ⊢
      rw [Function.update_of_ne heq, List.getElem?_set_ne (hother hb').symm]
      exact h.bound hb'
  · intro b1 b2 h1 h12
    by_cases heq1 : b1 = b <;> by_cases heq2 : b2 = b
    · rw [heq1, heq2]
    · subst heq1
      rw [Function.update_self, Function.update_of_ne heq2] at h12
      have hb2 : childIndexes b2 ≠ emptyChild := by rwa [← h12]
      exact absurd (by rw [← h12, hval]) (hother hb2)
    · subst heq2
      rw [Function.update_of_ne heq1] at h1 h12
      rw [Function.update_self] at h12
      exact absurd (by rw [h12, hval]) (hother h1)
    · rw [Function.update_of_ne heq1] at h1 h12
      rw [Function.update_of_ne heq2] at h12
      exact h.inj h1 h12
  · intro j q hq
    by_cases hj : i = j
    · subst hj
      exact ⟨b, by rw [Function.update_self, hval]⟩
    · rw [List.getElem?_set_ne hj] at hq
      obtain ⟨b', hb'⟩ := h.onto hq
      have heq : b' ≠ b := by
        rintro rfl
        rw [hb] at hb'
        have hj48 : j < 48 := by
          rw [← h.children_length]
          exact (List.getElem?_eq_some_iff.mp hq).1
        have h255 : emptyChild.toNat = 255 := rfl
        omega
      exact ⟨b', by rw [Function.update_of_ne heq, hb']⟩

theorem erase (h : SparseRep childIndexes children f) {b : UInt8}
    (hb : childIndexes b ≠ emptyChild) :
    SparseRep (Function.update childIndexes b emptyChild)
      (children.set (childIndexes b).toNat none) (Function.update f b none) := by
  have hother : ∀ {b'}, b' ≠ b → childIndexes b' ≠ emptyChild →
      (childIndexes b).toNat ≠ (childIndexes b').toNat := by
    intro b' hne hb' heq
    exact hne (h.inj hb' (UInt8.toNat_inj.mp heq.symm))
  refine ⟨by rw [List.length_set, h.children_length], ?_, ?_, ?_, ?_⟩
  · intro b' hb'
    by_cases heq : b' = b
    · subst heq
      rw [Function.update_self]
    · rw [Function.update_of_ne heq] at hb' ⊢
      exact h.empty hb'
  · intro b' hb'
    by_cases heq : b' = b
    · subst heq
      rw [Function.update_self] at hb'
      exact absurd rfl hb'
    · rw [Function.update_of_ne heq] at hb' ⊢
      rw [Function.update_of_ne heq, List.getElem?_set_ne (hother heq hb')]
      exact h.bound hb'
  · intro b1 b2 h1 h12
    have heq1 : b1 ≠ b := by
      rintro rfl
      rw [Function.update_self] at h1
      exact h1 rfl
    rw [Function.update_of_ne heq1] at h1 h12
    have heq2 : b2 ≠ b := by
      rintro rfl
      rw [Function.update_self] at h12
      exact h1 h12
    rw [Function.update_of_ne heq2] at h12
    exact h.inj h1 h12
  · intro j q hq
    have hj : (childIndexes b).toNat ≠ j := by
      rintro rfl
      rw [List.getElem?_set_self (by rw [h.children_length]; exact h.index_lt hb)] at hq
      cases hq
    rw [List.getElem?_set_ne hj] at hq
    obtain ⟨b', hb'⟩ := h.onto hq
    have heq : b' ≠ b := by
      rintro rfl
      exact hj hb'
    exact ⟨b', by rw [Function.update_of_ne heq, hb']⟩

theorem set (h : SparseRep childIndexes children f) {b : UInt8}
    (hb : childIndexes b ≠ emptyChild) (p : P) :
    SparseRep childIndexes (children.set (childIndexes b).toNat (some p))
      (Function.update f b (some p)) := by
  have hlen : (childIndexes b).toNat < children.length := by
    rw [h.children_length]
    exact h.index_lt hb
  refine ⟨by rw [List.length_set, h.children_length], ?_, ?_, h.inj, ?_⟩
  · intro b' hb'
    have heq : b' ≠ b := by
      rintro rfl
      exact hb hb'
    rw [Function.update_of_ne heq]
    exact h.empty hb'
  · intro b' hb'
    by_cases heq : b' = b
    · subst heq
      rw [Function.update_self, List.getElem?_set_self hlen]
      exact ⟨p, rfl, rfl⟩
    · have hne : (childIndexes b).toNat ≠ (childIndexes b').toNat :=
        fun hi => heq (h.inj hb' (UInt8.toNat_inj.mp hi.symm))
      rw [Function.update_of_ne heq, List.getElem?_set_ne hne]
      exact h.bound hb'
  · intro j q hq
    by_cases hj : (childIndexes b).toNat = j
    · exact ⟨b, hj⟩
    · rw [List.getElem?_set_ne hj] at hq
      exact h.onto hq

end SparseRep

/-! ## 3. The copy loops -/

/-- The table of a new `basic_inode_48`, filled from the keys of a full `basic_inode_16`. -/
theorem table_of_keys {keys : List UInt8} (hnodup : keys.Nodup) (start : Nat)
    (table : UInt8 → UInt8) (b : UInt8) :
    (b ∉ keys → (keys.zipIdx start).foldl
      (fun table key => Function.update table key.1 (UInt8.ofNat key.2)) table b = table b) ∧
    ∀ i, keys[i]? = some b → (keys.zipIdx start).foldl
      (fun table key => Function.update table key.1 (UInt8.ofNat key.2)) table b =
        UInt8.ofNat (start + i) := by
  induction keys generalizing start table with
  | nil => simp
  | cons k keys ih =>
    rw [List.nodup_cons] at hnodup
    rw [List.zipIdx_cons, List.foldl_cons]
    obtain ⟨ihout, ihin⟩ := ih hnodup.2 (start + 1) (Function.update table k (UInt8.ofNat start))
    constructor
    · intro hb
      rw [List.mem_cons, not_or] at hb
      rw [ihout hb.2, Function.update_of_ne hb.1]
    · intro i hi
      cases i with
      | zero =>
        rw [List.getElem?_cons_zero, Option.some_inj] at hi
        subst hi
        rw [ihout hnodup.1, Function.update_self, Nat.add_zero]
      | succ j =>
        rw [List.getElem?_cons_succ] at hi
        rw [ihin j hi]
        congr 1
        omega

/-- Growing a full sorted array into a table. -/
theorem SparseRep.of_dense {keys : List UInt8} {children : List (Option P)}
    {f : UInt8 → Option P} (h : DenseRep 16 keys children 16 f) :
    SparseRep (INode.fillIndexes keys) (children ++ List.replicate 32 none) f := by
  have hnodup : keys.Nodup := by
    have hlt := h.pairwise_lt
    rw [List.take_of_length_le h.keys_length.le] at hlt
    exact hlt.imp fun h => ne_of_lt h
  have htable : ∀ b, (b ∉ keys → INode.fillIndexes keys b = emptyChild) ∧
      ∀ i, keys[i]? = some b → INode.fillIndexes keys b = UInt8.ofNat (0 + i) :=
    table_of_keys hnodup 0 fun _ => emptyChild
  have hval : ∀ i < 16, (UInt8.ofNat i).toNat = i := by
    intro i hi
    rw [UInt8.toNat_ofNat']
    omega
  have h255 : emptyChild.toNat = 255 := rfl
  have hkeys := h.keys_length
  have hchildren := h.children_length
  -- The table entry of a byte is the index of the byte in the key array.
  have hentry : ∀ b, INode.fillIndexes keys b ≠ emptyChild →
      ∃ i < 16, keys[i]? = some b ∧ INode.fillIndexes keys b = UInt8.ofNat i := by
    intro b hb
    have hmem : b ∈ keys := by
      by_contra hnot
      exact hb ((htable b).1 hnot)
    obtain ⟨i, hi, hget⟩ := List.mem_iff_getElem.mp hmem
    have hget' : keys[i]? = some b := by rw [List.getElem?_eq_getElem hi, hget]
    refine ⟨i, by omega, hget', ?_⟩
    rw [(htable b).2 i hget', Nat.zero_add]
  refine ⟨by simp [hchildren], ?_, ?_, ?_, ?_⟩
  · intro b hb
    rw [h.eq_none_iff]
    intro i hi hget
    have hval' := (htable b).2 i hget
    rw [hb, Nat.zero_add] at hval'
    have := congrArg UInt8.toNat hval'
    rw [hval i hi] at this
    omega
  · intro b hb
    obtain ⟨i, hi, hget, hidx⟩ := hentry b hb
    obtain ⟨p, hp⟩ := h.defined hi
    refine ⟨p, ?_, (h.spec b p).mpr ⟨i, hi, hget, hp⟩⟩
    rw [hidx, hval i hi, List.getElem?_append_left (by omega), hp]
  · intro b b' hb heq
    obtain ⟨i, hi, hget, hidx⟩ := hentry b hb
    obtain ⟨j, hj, hget', hidx'⟩ := hentry b' (by rw [← heq]; exact hb)
    rw [hidx, hidx'] at heq
    have hij := congrArg UInt8.toNat heq
    rw [hval i hi, hval j hj] at hij
    subst hij
    rw [hget, Option.some_inj] at hget'
    exact hget'
  · intro i p hp
    by_cases hi : i < 16
    · obtain ⟨b, q, hget, -⟩ := h.key_exists hi
      exact ⟨b, by rw [(htable b).2 i hget, Nat.zero_add, hval i hi]⟩
    · rw [List.getElem?_append_right (by omega)] at hp
      have := List.mem_of_getElem? hp
      simp at this

section Loops

variable {childIndexes : UInt8 → UInt8} {pointers : List (Option P)} {f : UInt8 → Option P}

/-- The bytes still to visit that the map binds. -/
theorem filter_isSome_cons (f : UInt8 → Option P) (i : UInt8) (is : List UInt8) :
    ((i :: is).filter fun b => (f b).isSome).length =
      (if (f i).isSome then 1 else 0) + (is.filter fun b => (f b).isSome).length := by
  by_cases hi : (f i).isSome
  · rw [List.filter_cons, if_pos hi, List.length_cons, if_pos hi, Nat.add_comm]
  · rw [List.filter_cons, if_neg hi, if_neg hi, Nat.zero_add]

theorem copyInto256_spec (h : SparseRep childIndexes pointers f) {is : List UInt8}
    (hnodup : is.Nodup) {copied : Nat} {children : UInt8 → Option P}
    (hdone : ∀ b ∉ is, children b = f b) (htodo : ∀ b ∈ is, children b = none)
    (hcount : copied + (is.filter fun b => (f b).isSome).length = 48) (hlt : copied < 48) :
    INode.copyInto256 childIndexes pointers is copied children = .ok f := by
  induction is generalizing copied children with
  | nil =>
    rw [List.filter_nil, List.length_nil] at hcount
    omega
  | cons i is ih =>
    rw [List.nodup_cons] at hnodup
    rw [filter_isSome_cons] at hcount
    rw [INode.copyInto256]
    by_cases hi : childIndexes i = emptyChild
    · have hnone := h.empty hi
      rw [if_pos hi]
      rw [hnone] at hcount
      refine ih hnodup.2 ?_ (fun b hb => htodo b (List.mem_cons_of_mem _ hb)) (by simpa using hcount)
        hlt
      intro b hb
      by_cases hbi : b = i
      · subst hbi
        rw [htodo b List.mem_cons_self, hnone]
      · exact hdone b (by simp [hbi, hb])
    · obtain ⟨p, hp, hf⟩ := h.bound hi
      rw [if_neg hi, inBounds_bind hp]
      rw [hf, Option.isSome_some, if_pos rfl] at hcount
      have hdone' : ∀ b ∉ is, Function.update children i (some p) b = f b := by
        intro b hb
        by_cases hbi : b = i
        · subst hbi
          rw [Function.update_self, hf]
        · rw [Function.update_of_ne hbi]
          exact hdone b (by simp [hbi, hb])
      have htodo' : ∀ b ∈ is, Function.update children i (some p) b = none := by
        intro b hb
        have hbi : b ≠ i := by
          rintro rfl
          exact hnodup.1 hb
        rw [Function.update_of_ne hbi]
        exact htodo b (List.mem_cons_of_mem _ hb)
      by_cases hlast : copied + 1 = NodeType.i48.capacity
      · rw [if_pos hlast]
        have hcap : NodeType.i48.capacity = 48 := rfl
        have hempty : is.filter (fun b => (f b).isSome) = [] :=
          List.eq_nil_of_length_eq_zero (by omega)
        show Except.ok _ = Except.ok _
        congr 1
        funext b
        by_cases hb : b ∈ is
        · have hnone := List.filter_eq_nil_iff.mp hempty b hb
          rw [htodo' b hb, eq_comm]
          simpa using hnone
        · exact hdone' b hb
      · rw [if_neg hlast]
        have hcap : NodeType.i48.capacity = 48 := rfl
        exact ih hnodup.2 hdone' htodo' (by omega) (by omega)

theorem copyInto16_spec (hempty : ∀ {b}, childIndexes b = emptyChild → f b = none)
    (hbound : ∀ {b}, childIndexes b ≠ emptyChild →
      ∃ p, pointers[(childIndexes b).toNat]? = some (some p) ∧ f b = some p)
    {is keys : List UInt8} {children : List (Option P)} (hlens : children.length = keys.length)
    (hcount : keys.length + (is.filter fun b => (f b).isSome).length = 16)
    (hlt : keys.length < 16) :
    INode.copyInto16 childIndexes pointers is keys children =
      .ok (keys ++ is.filter (fun b => (f b).isSome),
        children ++ (is.filter fun b => (f b).isSome).map f) := by
  induction is generalizing keys children with
  | nil =>
    rw [List.filter_nil, List.length_nil] at hcount
    omega
  | cons i is ih =>
    rw [filter_isSome_cons] at hcount
    rw [INode.copyInto16]
    by_cases hi : childIndexes i = emptyChild
    · have hnone := hempty hi
      rw [if_neg (by simpa using hi), List.filter_cons_of_neg (by simp [hnone])]
      rw [hnone] at hcount
      exact ih hlens (by simpa using hcount) hlt
    · obtain ⟨p, hp, hf⟩ := hbound hi
      have hcap : NodeType.i16.capacity = 16 := rfl
      have hlen : (keys ++ [i]).length = keys.length + 1 := List.length_append
      rw [if_pos hi, inBounds_bind (push_eq (by omega) _), inBounds_bind hp,
        assertThat_bind Option.isSome_some, inBounds_bind (push_eq (by omega) _), hlen]
      rw [hf, Option.isSome_some, if_pos rfl] at hcount
      rw [List.filter_cons_of_pos (by simp [hf]), List.map_cons, hf]
      by_cases hlast : keys.length + 1 = NodeType.i16.capacity
      · have hnil : is.filter (fun b => (f b).isSome) = [] :=
          List.eq_nil_of_length_eq_zero (by omega)
        rw [if_pos hlast, hnil, List.map_nil]
        rfl
      · have hlens' : (children ++ [some p]).length = (keys ++ [i]).length := by
          rw [List.length_append, List.length_append, hlens]
          rfl
        rw [if_neg hlast, ih hlens' (by omega) (by omega)]
        rw [List.append_assoc, List.append_assoc, List.singleton_append, List.singleton_append]

/-- What the loop that fills a `basic_inode_48` from a `basic_inode_256` has done so far. -/
structure Filled (f : UInt8 → Option P) (is : List UInt8) (childIndexes : UInt8 → UInt8)
    (children : List (Option P)) : Prop where
  todo : ∀ b ∈ is, childIndexes b = emptyChild
  empty : ∀ b ∉ is, f b = none → childIndexes b = emptyChild
  bound : ∀ b ∉ is, ∀ p, f b = some p →
    (childIndexes b).toNat < children.length ∧ children[(childIndexes b).toNat]? = some (some p)
  inj : ∀ {b b'}, b ∉ is → b' ∉ is → childIndexes b ≠ emptyChild →
    childIndexes b = childIndexes b' → b = b'
  onto : ∀ i < children.length, ∃ b ∉ is, (childIndexes b).toNat = i
  length_le : children.length ≤ 48

theorem Filled.skip {is : List UInt8} {children : List (Option P)} {i : UInt8}
    (h : Filled f (i :: is) childIndexes children) (hnone : f i = none) :
    Filled f is childIndexes children where
  todo b hb := h.todo b (List.mem_cons_of_mem _ hb)
  empty := by
    intro b hb hf
    by_cases hbi : b = i
    · subst hbi
      exact h.todo b List.mem_cons_self
    · exact h.empty b (by simp [hbi, hb]) hf
  bound := by
    intro b hb p hf
    have hbi : b ≠ i := by
      rintro rfl
      rw [hnone] at hf
      cases hf
    exact h.bound b (by simp [hbi, hb]) p hf
  inj := by
    intro b b' hb hb' hne heq
    have hbi : b ≠ i := by
      rintro rfl
      exact hne (h.todo b List.mem_cons_self)
    have hbi' : b' ≠ i := by
      rintro rfl
      exact hne (by rw [heq]; exact h.todo b' List.mem_cons_self)
    exact h.inj (by simp [hbi, hb]) (by simp [hbi', hb']) hne heq
  onto := by
    intro j hj
    obtain ⟨b, hb, hidx⟩ := h.onto j hj
    exact ⟨b, fun hmem => hb (List.mem_cons_of_mem _ hmem), hidx⟩
  length_le := h.length_le

theorem Filled.push {is : List UInt8} {children : List (Option P)} {i : UInt8} {p : P}
    (h : Filled f (i :: is) childIndexes children) (hi : i ∉ is) (hf : f i = some p)
    (hlt : children.length < 48) :
    Filled f is (Function.update childIndexes i (UInt8.ofNat children.length))
      (children ++ [some p]) := by
  have hval : (UInt8.ofNat children.length).toNat = children.length := by
    rw [UInt8.toNat_ofNat']
    omega
  -- The slots used before lie below the new one.
  have hold : ∀ b, b ≠ i → b ∉ is → childIndexes b ≠ emptyChild →
      (childIndexes b).toNat < children.length := by
    intro b hbi hb hne
    cases hfb : f b with
    | none => exact absurd (h.empty b (by simp [hbi, hb]) hfb) hne
    | some q => exact (h.bound b (by simp [hbi, hb]) q hfb).1
  refine ⟨?_, ?_, ?_, ?_, ?_, ?_⟩
  · intro b hb
    have hbi : b ≠ i := by
      rintro rfl
      exact hi hb
    rw [Function.update_of_ne hbi]
    exact h.todo b (List.mem_cons_of_mem _ hb)
  · intro b hb hnone
    have hbi : b ≠ i := by
      rintro rfl
      rw [hnone] at hf
      cases hf
    rw [Function.update_of_ne hbi]
    exact h.empty b (by simp [hbi, hb]) hnone
  · intro b hb q hq
    rw [List.length_append, List.length_singleton]
    by_cases hbi : b = i
    · subst hbi
      rw [hf, Option.some_inj] at hq
      subst hq
      rw [Function.update_self, hval, List.getElem?_concat_length]
      exact ⟨by omega, rfl⟩
    · obtain ⟨hlt', hget⟩ := h.bound b (by simp [hbi, hb]) q hq
      rw [Function.update_of_ne hbi, List.getElem?_append_left hlt']
      exact ⟨by omega, hget⟩
  · intro b b' hb hb' hne heq
    by_cases hbi : b = i <;> by_cases hbi' : b' = i
    · rw [hbi, hbi']
    · subst hbi
      rw [Function.update_self] at hne heq
      rw [Function.update_of_ne hbi'] at heq
      have := hold b' hbi' hb' (by rw [← heq]; exact hne)
      rw [← heq, hval] at this
      omega
    · subst hbi'
      rw [Function.update_of_ne hbi] at hne heq
      rw [Function.update_self] at heq
      have := hold b hbi hb hne
      rw [heq, hval] at this
      omega
    · rw [Function.update_of_ne hbi] at hne heq
      rw [Function.update_of_ne hbi'] at heq
      exact h.inj (by simp [hbi, hb]) (by simp [hbi', hb']) hne heq
  · intro j hj
    rw [List.length_append, List.length_singleton] at hj
    by_cases hlast : j = children.length
    · exact ⟨i, hi, by rw [Function.update_self, hval, hlast]⟩
    · obtain ⟨b, hb, hidx⟩ := h.onto j (by omega)
      rw [List.mem_cons, not_or] at hb
      exact ⟨b, hb.2, by rw [Function.update_of_ne hb.1, hidx]⟩
  · rw [List.length_append, List.length_singleton]
    omega

/-- The loop ends with every binding placed. -/
theorem copyInto48_filled {is : List UInt8} (hnodup : is.Nodup) {children : List (Option P)}
    (h : Filled f is childIndexes children)
    (hcount : children.length + (is.filter fun b => (f b).isSome).length = 48)
    (hlt : children.length < 48) :
    ∃ childIndexes' children', INode.copyInto48 f is childIndexes children =
      .ok (childIndexes', children') ∧ Filled f [] childIndexes' children' ∧ children'.length = 48 := by
  induction is generalizing childIndexes children with
  | nil =>
    rw [List.filter_nil, List.length_nil] at hcount
    omega
  | cons i is ih =>
    rw [List.nodup_cons] at hnodup
    rw [filter_isSome_cons] at hcount
    rw [INode.copyInto48]
    cases hf : f i with
    | none =>
      rw [hf] at hcount
      exact ih hnodup.2 (h.skip hf) (by simpa using hcount) hlt
    | some p =>
      have hpush := h.push hnodup.1 hf hlt
      rw [hf, Option.isSome_some, if_pos rfl] at hcount
      have hcap : NodeType.i48.capacity = 48 := rfl
      have hlen : (children ++ [some p]).length = children.length + 1 := List.length_append
      simp only
      rw [inBounds_bind (push_eq (by omega) _), hlen]
      by_cases hlast : children.length + 1 = NodeType.i48.capacity
      · rw [if_pos hlast]
        refine ⟨_, _, rfl, ?_, by rw [List.length_append, List.length_singleton]; omega⟩
        -- Nothing is bound past this byte, so the rest of the loop would only skip.
        have hnil : is.filter (fun b => (f b).isSome) = [] :=
          List.eq_nil_of_length_eq_zero (by omega)
        have hskip : ∀ js : List UInt8, (∀ b ∈ js, f b = none) →
            ∀ {ci : UInt8 → UInt8} {cs : List (Option P)}, Filled f js ci cs → Filled f [] ci cs := by
          intro js hjs
          induction js with
          | nil => exact fun h => h
          | cons j js ihj =>
            intro ci cs hfill
            exact ihj (fun b hb => hjs b (List.mem_cons_of_mem _ hb))
              (hfill.skip (hjs j List.mem_cons_self))
        refine hskip is ?_ hpush
        intro b hb
        have := List.filter_eq_nil_iff.mp hnil b hb
        simpa using this
      · rw [if_neg hlast]
        exact ih hnodup.2 hpush (by rw [List.length_append, List.length_singleton]; omega)
          (by rw [List.length_append, List.length_singleton]; omega)

theorem Filled.sparse {childIndexes : UInt8 → UInt8} {children : List (Option P)}
    (h : Filled f [] childIndexes children) (hlen : children.length = 48) :
    SparseRep childIndexes children f where
  children_length := hlen
  empty := by
    intro b hb
    by_contra hne
    obtain ⟨p, hp⟩ := Option.ne_none_iff_exists'.mp hne
    have hlt := (h.bound b List.not_mem_nil p hp).1
    rw [hb] at hlt
    have h255 : emptyChild.toNat = 255 := rfl
    omega
  bound := by
    intro b hb
    cases hf : f b with
    | none => exact absurd (h.empty b List.not_mem_nil hf) hb
    | some p => exact ⟨p, (h.bound b List.not_mem_nil p hf).2, rfl⟩
  inj hb heq := h.inj List.not_mem_nil List.not_mem_nil hb heq
  onto := by
    intro i p hp
    obtain ⟨b, -, hidx⟩ := h.onto i (List.getElem?_eq_some_iff.mp hp).1
    exact ⟨b, hidx⟩

end Loops

end Unodb
