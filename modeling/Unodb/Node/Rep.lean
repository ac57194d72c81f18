import Unodb.Node.Sparse

/-!
# Inner nodes as finite maps

Every layout represents a map from key bytes to child pointers.  The operations that the tree code
calls on a node are specified here through that map, once for all four layouts.
-/

open Words Arrays

namespace Unodb

variable {P : Type}

/-- A layout represents a map. -/
def Layout.Rep : Layout P → Nat → (UInt8 → Option P) → Prop
  | .i4 keys children, count, f => DenseRep 4 keys children count f
  | .i16 keys children, count, f => DenseRep 16 keys children count f
  | .i48 childIndexes children, _, f => SparseRep childIndexes children f
  | .i256 children, _, f => children = f

/-- The type the next larger node has. -/
def NodeType.larger : NodeType → NodeType
  | .i4 => .i16
  | .i16 => .i48
  | _ => .i256

/-- The type the next smaller node has. -/
def NodeType.smaller : NodeType → NodeType
  | .i256 => .i48
  | .i48 => .i16
  | _ => .i4

namespace INode

/-- The child for a key byte: what is read through the result of `find_child`. -/
def child (n : INode P) (b : UInt8) : Option P := (n.findChild b).bind fun r => n.slot r.2

/-- A node represents a map whose size fits its type; the stored count wraps at 256. -/
structure Rep (n : INode P) (f : UInt8 → Option P) : Prop where
  layout : n.layout.Rep n.childrenCount f
  count : n.childrenCount = degree f % 256
  minSize_le : n.type.minSize ≤ degree f
  le_capacity : degree f ≤ n.type.capacity

/-- A well-formed node. -/
def WF (n : INode P) : Prop := n.Rep n.child

theorem type_ne_leaf (n : INode P) : n.type ≠ .leaf := by
  rw [type]
  split <;> simp

theorem Rep.findChild_eq_none_iff {n : INode P} {f : UInt8 → Option P} (h : n.Rep f) (b : UInt8) :
    n.findChild b = none ↔ f b = none := by
  obtain ⟨keyPrefix, count, layout⟩ := n
  have hl := h.layout
  cases layout with
  | i4 keys children | i16 keys children =>
    simp only [findChild, Option.map_eq_none_iff]
    exact hl.findKey_eq_none_iff b
  | i48 childIndexes children =>
    simp only [findChild, ite_eq_right_iff, reduceCtorEq, imp_false, not_not]
    exact (hl.eq_none_iff b).symm
  | i256 children =>
    simp only [Layout.Rep] at hl
    subst hl
    simp only [findChild, ite_eq_right_iff, reduceCtorEq, imp_false]
    simp

theorem Rep.findChild_eq_some {n : INode P} {f : UInt8 → Option P} (h : n.Rep f) {b : UInt8}
    {ci s : Nat} (hfind : n.findChild b = some (ci, s)) :
    ∃ p, f b = some p ∧ n.slot s = some p ∧ n.getChild ci = some p := by
  obtain ⟨keyPrefix, count, layout⟩ := n
  have hl := h.layout
  cases layout with
  | i4 keys children | i16 keys children =>
    simp only [findChild, Option.map_eq_some_iff] at hfind
    obtain ⟨i, hi, heq⟩ := hfind
    cases heq
    obtain ⟨hlt, hb⟩ := (hl.findKey_eq_some_iff b _).mp hi
    obtain ⟨p, hp⟩ := hl.defined hlt
    refine ⟨p, (hl.spec b p).mpr ⟨_, hlt, hb, hp⟩, ?_, ?_⟩
    · simp [slot, hp]
    · simp [getChild, slot, hp]
  | i48 childIndexes children =>
    simp only [findChild] at hfind
    split at hfind
    · rename_i hne
      cases hfind
      obtain ⟨p, hp, hf⟩ := hl.bound hne
      refine ⟨p, hf, by simp [slot, hp], ?_⟩
      simp [getChild, hne, slot, hp]
    · cases hfind
  | i256 children =>
    simp only [Layout.Rep] at hl
    subst hl
    simp only [findChild] at hfind
    split at hfind
    · rename_i hsome
      cases hfind
      obtain ⟨p, hp⟩ := Option.isSome_iff_exists.mp hsome
      exact ⟨p, hp, by simp [slot, hp], by simp [getChild, slot, hp]⟩
    · cases hfind

theorem Rep.child_eq {n : INode P} {f : UInt8 → Option P} (h : n.Rep f) : n.child = f := by
  funext b
  rw [child]
  cases hfind : n.findChild b with
  | none => exact ((h.findChild_eq_none_iff b).mp hfind).symm
  | some r =>
    obtain ⟨ci, s⟩ := r
    obtain ⟨p, hf, hs, -⟩ := h.findChild_eq_some hfind
    rw [Option.bind_some, hs, hf]

theorem Rep.wf {n : INode P} {f : UInt8 → Option P} (h : n.Rep f) : n.WF := by
  rw [WF, h.child_eq]
  exact h

theorem type_capacity_lt {n : INode P} (h : n.type ≠ .i256) : n.type.capacity < 256 := by
  cases htype : n.type with
  | i256 => exact absurd htype h
  | _ => decide

/-- The count of a full node of the smaller types has not wrapped. -/
theorem WF.degree_of_full {n : INode P} (h : n.WF) (h256 : n.type ≠ .i256)
    (hcount : n.childrenCount = n.type.capacity) : degree n.child = n.type.capacity := by
  have hlt := type_capacity_lt h256
  have hle := h.le_capacity
  rw [← hcount, h.count, Nat.mod_eq_of_lt (by omega)]

/-- A node that does not grow has room for a byte it does not bind. -/
theorem WF.degree_of_room {n : INode P} (h : n.WF) {b : UInt8} (hb : n.child b = none)
    (hroom : ¬ (n.type ≠ .i256 ∧ n.childrenCount = n.type.capacity)) :
    degree n.child < n.type.capacity := by
  refine Nat.lt_of_le_of_ne h.le_capacity fun heq => ?_
  by_cases h256 : n.type = .i256
  · -- A map of bytes that leaves one out has at most 255 entries.
    obtain ⟨-, c, hc⟩ : ∃ x c, n.child x = some c := by
      obtain ⟨x, hx⟩ := degree_pos_iff.mp (show 0 < degree n.child by rw [heq, h256]; decide)
      exact ⟨x, Option.isSome_iff_exists.mp hx⟩
    have hdeg := degree_update_some hb c
    have hcard := degree_le_card (Function.update n.child b (some c))
    rw [← FinEnum.card_eq_fintypeCard, FinEnum.card_UInt8] at hcard
    rw [heq, h256] at hdeg
    simp only [NodeType.capacity] at hdeg
    omega
  · refine hroom ⟨h256, ?_⟩
    rw [h.count, heq, Nat.mod_eq_of_lt (type_capacity_lt h256)]

theorem WF.isMinSize_iff {n : INode P} (h : n.WF) :
    n.isMinSize ↔ degree n.child = n.type.minSize := by
  have hmin := h.minSize_le
  have hcap := h.le_capacity
  rw [isMinSize, decide_eq_true_eq, h.count]
  cases htype : n.type <;> rw [htype] at hmin hcap <;>
    simp only [NodeType.minSize, NodeType.capacity] at * <;> omega

/-! ## 1. Lookup and store -/

theorem WF.findChild_eq_none_iff {n : INode P} (h : n.WF) (b : UInt8) :
    n.findChild b = none ↔ n.child b = none :=
  Rep.findChild_eq_none_iff h b

theorem WF.findChild_eq_some {n : INode P} (h : n.WF) {b : UInt8} {ci s : Nat}
    (hfind : n.findChild b = some (ci, s)) :
    ∃ p, n.child b = some p ∧ n.slot s = some p ∧ n.getChild ci = some p :=
  Rep.findChild_eq_some h hfind

theorem WF.exists_findChild {n : INode P} (h : n.WF) {b : UInt8} {p : P}
    (hb : n.child b = some p) :
    ∃ ci s, n.findChild b = some (ci, s) ∧ n.slot s = some p ∧ n.getChild ci = some p := by
  cases hfind : n.findChild b with
  | none =>
    rw [(h.findChild_eq_none_iff b).mp hfind] at hb
    cases hb
  | some r =>
    obtain ⟨ci, s⟩ := r
    obtain ⟨q, hq, hs, hg⟩ := h.findChild_eq_some hfind
    rw [hb, Option.some_inj] at hq
    subst hq
    exact ⟨ci, s, rfl, hs, hg⟩

@[simp] theorem setSlot_keyPrefix (n : INode P) (s : Nat) (p : P) :
    (n.setSlot s p).keyPrefix = n.keyPrefix := rfl

@[simp] theorem setSlot_childrenCount (n : INode P) (s : Nat) (p : P) :
    (n.setSlot s p).childrenCount = n.childrenCount := rfl

@[simp] theorem setSlot_type (n : INode P) (s : Nat) (p : P) : (n.setSlot s p).type = n.type := by
  obtain ⟨keyPrefix, count, layout⟩ := n
  cases layout <;> rfl

/-- A store through the slot of a found child rebinds its key byte. -/
theorem WF.setSlot {n : INode P} (h : n.WF) {b : UInt8} {ci s : Nat}
    (hfind : n.findChild b = some (ci, s)) (p : P) :
    (n.setSlot s p).Rep (Function.update n.child b (some p)) := by
  obtain ⟨q, hq, -⟩ := h.findChild_eq_some hfind
  have hdeg : degree (Function.update n.child b (some p)) = degree n.child :=
    degree_update_of_isSome (by rw [hq]; rfl) p
  refine ⟨?_, by rw [setSlot_childrenCount, hdeg, h.count],
    by rw [setSlot_type, hdeg]; exact h.minSize_le, by rw [setSlot_type, hdeg]; exact h.le_capacity⟩
  have hl := h.layout
  obtain ⟨keyPrefix, count, layout⟩ := n
  cases layout with
  | i4 keys children | i16 keys children =>
    simp only [findChild, Option.map_eq_some_iff] at hfind
    obtain ⟨i, hi, heq⟩ := hfind
    cases heq
    obtain ⟨hlt, hb⟩ := (hl.findKey_eq_some_iff b _).mp hi
    exact hl.set hlt hb p
  | i48 childIndexes children =>
    simp only [findChild] at hfind
    split at hfind
    · rename_i hne
      cases hfind
      exact hl.set hne p
    · cases hfind
  | i256 children =>
    simp only [findChild] at hfind
    split at hfind
    · cases hfind
      simp only [Layout.Rep] at hl
      simp only [INode.setSlot, Layout.Rep]
      rw [UInt8.ofNat_toNat, ← hl]
    · cases hfind

/-! ## 2. Adding a child -/

/-- Opening a gap in an array with room for one more entry stays within the array. -/
theorem insertAt_spec {α : Type} {xs : List α} {count pos : Nat} (x : α)
    (hcount : count < xs.length) (hpos : pos ≤ count) :
    ∃ ys, insertAt xs count pos x = some ys ∧ ys.length = xs.length ∧ ∀ j ≤ count,
      ys[j]? = if j < pos then xs[j]? else if j = pos then some x else xs[j - 1]? := by
  obtain ⟨zs, hzs, hlen, hval⟩ := shiftUp_spec pos hcount
  refine ⟨zs.set pos x, ?_, by rw [List.length_set, hlen], fun j hj => ?_⟩
  · rw [insertAt, hzs, Option.bind_eq_bind, Option.bind_some, store_eq (by omega)]
  · rw [List.getElem?_set, hlen, hval]
    by_cases hlt : j < pos
    · rw [if_pos hlt, if_neg (by omega), if_neg (by omega)]
    · rw [if_neg hlt]
      by_cases heq : j = pos
      · rw [if_pos heq, if_pos heq.symm, if_pos (by omega)]
      · rw [if_neg heq, if_neg (by omega), if_pos (by omega)]

end INode

/-- The two arrays of a sorted node after a gap was opened and filled. -/
theorem DenseRep.insertAt {capacity : Nat} {keys : List UInt8} {children : List (Option P)}
    {count : Nat} {f : UInt8 → Option P} (h : DenseRep capacity keys children count f) {b : UInt8}
    {pos : Nat} (hpos : DenseRep.InsertPos keys count b pos) (hb : f b = none)
    (hcount : count < capacity) (p : P) :
    ∃ keys' children', INode.insertAt keys count pos b = some keys' ∧
      INode.insertAt children count pos (some p) = some children' ∧
      DenseRep capacity keys' children' (count + 1) (Function.update f b (some p)) := by
  have hk := h.keys_length
  have hc := h.children_length
  obtain ⟨keys', hkeys, hklen, hkval⟩ := INode.insertAt_spec b
    (show count < keys.length by omega) hpos.le
  obtain ⟨children', hchildren, hclen, hcval⟩ := INode.insertAt_spec (some p)
    (show count < children.length by omega) hpos.le
  exact ⟨keys', children', hkeys, hchildren,
    h.insert hpos hb (hklen.trans hk) (hclen.trans hc) hcount hkval hcval⟩

namespace INode

/-- `add_to_nonfull` binds an absent key byte of a node that is not full. -/
theorem WF.addToNonfull {n : INode P} (h : n.WF) {b : UInt8} (hb : n.child b = none)
    (hfull : degree n.child < n.type.capacity) (p : P) :
    ∃ n', n.addToNonfull p b n.childrenCount = .ok n' ∧
      n'.Rep (Function.update n.child b (some p)) ∧ n'.keyPrefix = n.keyPrefix ∧
      n'.type = n.type := by
  have hdeg := degree_update_some hb p
  have hmin := h.minSize_le
  have hcount := h.count
  have hl := h.layout
  have hassert : n.childrenCount < n.type.capacity := by
    have : degree n.child % 256 ≤ degree n.child := Nat.mod_le _ _
    omega
  rw [INode.addToNonfull, assertThat_bind ⟨rfl, hassert⟩]
  obtain ⟨keyPrefix, count, layout⟩ := n
  cases layout with
  | i4 keys children =>
    -- A dense node: a gap is opened at the position, in both arrays.
    simp only [INode.type, NodeType.capacity, NodeType.minSize] at hfull hmin hassert
    have hpos := hl.getInsertPos_spec hb
    have hk := hl.keys_length
    obtain ⟨keys', children', hkeys, hchildren, hrep⟩ := hl.insertAt hpos hb hassert p
    have hk' := hrep.keys_length
    refine ⟨⟨keyPrefix, count + 1, .i4 _ _⟩, ?_, ⟨hrep, ?_, ?_, ?_⟩, rfl, rfl⟩
    · dsimp only
      rw [inBounds_bind (slice_zero (by omega)), assertThat_bind hl.pairwise_le,
        inBounds_bind hkeys, inBounds_bind hchildren, inBounds_bind (slice_zero (by omega)),
        assertThat_bind hrep.pairwise_le]
      rfl
    all_goals
      simp only [INode.type, NodeType.capacity, NodeType.minSize] at hcount ⊢
      omega
  | i16 keys children =>
    simp only [INode.type, NodeType.capacity, NodeType.minSize] at hfull hmin hassert
    have hpos := hl.getSortedKeyArrayInsertPosition_spec hb
    have hk := hl.keys_length
    obtain ⟨keys', children', hkeys, hchildren, hrep⟩ := hl.insertAt hpos hb hassert p
    have hk' := hrep.keys_length
    have hassert' : getSortedKeyArrayInsertPosition keys count b = count ∨
        (getSortedKeyArrayInsertPosition keys count b < count ∧
          keys[getSortedKeyArrayInsertPosition keys count b]? ≠ some b) := by
      rcases Nat.lt_or_eq_of_le hpos.le with hlt | heq
      · exact .inr ⟨hlt, (hl.eq_none_iff b).mp hb _ hlt⟩
      · exact .inl heq
    refine ⟨⟨keyPrefix, count + 1, .i16 _ _⟩, ?_, ⟨hrep, ?_, ?_, ?_⟩, rfl, rfl⟩
    · dsimp only
      rw [inBounds_bind (slice_zero (by omega)), assertThat_bind hl.pairwise_lt,
        assertThat_bind hassert', inBounds_bind hkeys, inBounds_bind hchildren,
        inBounds_bind (slice_zero (by omega)), assertThat_bind hrep.pairwise_le]
      rfl
    all_goals
      simp only [INode.type, NodeType.capacity, NodeType.minSize] at hcount ⊢
      omega
  | i48 childIndexes children =>
    simp only [INode.type, NodeType.capacity, NodeType.minSize] at hfull hmin hassert
    -- A sparse node: there is a free place, as the node is not full.
    have hempty := (hl.eq_none_iff b).mp hb
    obtain ⟨hlt, hfree⟩ := hl.findIdx_free hfull
    have hrep := hl.insert hempty hlt hfree p
    have hlen : children.findIdx (·.isNone) < children.length := by
      rw [hl.children_length]
      exact hlt
    have hassert' : NodeType.i48.minSize ≤ count ∧ childIndexes b = emptyChild := by
      refine ⟨?_, hempty⟩
      simp only [NodeType.minSize] at hcount ⊢
      omega
    refine ⟨⟨keyPrefix, count + 1, .i48 _ _⟩, ?_, ⟨hrep, ?_, ?_, ?_⟩, rfl, rfl⟩
    · dsimp only
      rw [assertThat_bind hassert', inBounds_bind (store_eq hlen _)]
      rfl
    all_goals
      simp only [INode.type, NodeType.capacity, NodeType.minSize] at hcount ⊢
      omega
  | i256 children =>
    simp only [INode.type, NodeType.capacity, NodeType.minSize] at hfull hmin hassert
    simp only [Layout.Rep] at hl
    -- A direct node: the entry of the byte is free.
    have hnone : children b = none := by rw [hl]; exact hb
    refine ⟨⟨keyPrefix, (count + 1) % 256, .i256 (Function.update children b (some p))⟩, ?_,
      ⟨?_, ?_, ?_, ?_⟩, rfl, rfl⟩
    · dsimp only
      rw [assertThat_bind hnone]
      rfl
    · simp only [Layout.Rep]
      rw [← hl]
    all_goals
      simp only [INode.type, NodeType.capacity, NodeType.minSize] at hcount ⊢
      omega

/-- The first entries of an array with one put in between, in an array with room for them. -/
theorem insertMid_spec {α : Type} (xs : List α) (x pad : α) {pos count capacity : Nat}
    (hpos : pos ≤ count) (hcount : count ≤ xs.length) (hcap : count < capacity) :
    ∃ ys, fill capacity (xs.take pos ++ x :: (xs.take count).drop pos) pad = some ys ∧
      ys.length = capacity ∧ ∀ j ≤ count,
        ys[j]? = if j < pos then xs[j]? else if j = pos then some x else xs[j - 1]? := by
  have hlen : (xs.take pos ++ x :: (xs.take count).drop pos).length = count + 1 := by
    simp
    omega
  refine ⟨_, fill_eq (by omega) pad, by rw [List.length_append, List.length_replicate]; omega,
    fun j hj => ?_⟩
  rw [List.getElem?_append_left (by omega), List.getElem?_append, List.length_take,
    Nat.min_eq_left (by omega)]
  by_cases hlt : j < pos
  · rw [if_pos hlt, if_pos hlt, List.getElem?_take_of_lt hlt]
  · rw [if_neg hlt, if_neg hlt, List.getElem?_cons, List.getElem?_drop]
    by_cases heq : j = pos
    · rw [if_pos heq, if_pos (by omega)]
    · rw [if_neg heq, if_neg (by omega), List.getElem?_take_of_lt (by omega)]
      congr 1
      omega

/-- The constructor of the next larger type binds an absent key byte of a full node. -/
theorem WF.grow {n : INode P} (h : n.WF) {b : UInt8} (hb : n.child b = none)
    (hfull : degree n.child = n.type.capacity) (htype : n.type ≠ .i256) (p : P) :
    ∃ n', n.grow p b = .ok n' ∧ n'.Rep (Function.update n.child b (some p)) ∧
      n'.keyPrefix = n.keyPrefix ∧ n'.type = n.type.larger := by
  have hdeg := degree_update_some hb p
  have hcount := h.count
  have hl := h.layout
  obtain ⟨keyPrefix, count, layout⟩ := n
  rw [INode.grow]
  cases layout with
  | i4 keys children =>
    simp only [INode.type, NodeType.capacity] at hfull
    have hcount4 : count = 4 := by
      simp only at hcount
      omega
    subst hcount4
    -- The entries are copied around the gap for the new one.
    have hk := hl.keys_length
    have hc := hl.children_length
    have hpos := hl.getInsertPos_spec hb
    have hle : getInsertPos keys 4 b ≤ 4 := hpos.le
    obtain ⟨keys', hkeys, hklen, hkval⟩ := insertMid_spec keys b 0 hle (by omega)
      (show 4 < NodeType.i16.capacity by decide)
    obtain ⟨children', hchildren, hclen, hcval⟩ := insertMid_spec children (some p) none hle
      (by omega) (show 4 < NodeType.i16.capacity by decide)
    have hrep : DenseRep 16 keys' children' 5
        (Function.update (INode.mk keyPrefix 4 (.i4 keys children)).child b (some p)) :=
      hl.insert hpos hb hklen hclen (by omega) hkval hcval
    have h4 : NodeType.i4.capacity = 4 := rfl
    refine ⟨⟨keyPrefix, 5, .i16 _ _⟩, ?_, ⟨hrep, ?_, ?_, ?_⟩, rfl, rfl⟩
    · dsimp only
      rw [assertThat_bind h4.symm, inBounds_bind (slice_zero (by omega)),
        inBounds_bind (slice_zero (by omega)), inBounds_bind (slice_eq (by omega) _),
        inBounds_bind (slice_eq (by omega) _), h4, inBounds_bind hkeys, inBounds_bind hchildren]
      rfl
    all_goals
      simp only [INode.type, NodeType.capacity, NodeType.minSize]
      omega
  | i16 keys children =>
    simp only [INode.type, NodeType.capacity] at hfull
    have hcount16 : count = 16 := by
      simp only at hcount
      omega
    subst hcount16
    have hc := hl.children_length
    -- The keys get the places in their order, and the new child the next one.
    have hbase := SparseRep.of_dense hl
    have hempty := (hbase.eq_none_iff b).mp hb
    have hfree : (children ++ List.replicate 32 none)[16]? = some none := by
      rw [List.getElem?_append_right (by omega), List.getElem?_replicate, if_pos (by omega)]
    have hrep := hbase.insert hempty (by omega) hfree p
    have hk := hl.keys_length
    have hlen : (children ++ [some p]).length = 17 := by rw [List.length_append, hc]; rfl
    have hset : (children ++ List.replicate 32 none).set 16 (some p) =
        (children ++ [some p]) ++ List.replicate (NodeType.i48.capacity - 17) none := by
      rw [List.set_append_right _ _ (by omega), hc, List.append_assoc]
      rfl
    rw [hset] at hrep
    have h16 : NodeType.i16.capacity = 16 := rfl
    refine ⟨⟨keyPrefix, 17, .i48 _ _⟩, ?_, ⟨hrep, ?_, ?_, ?_⟩, rfl, rfl⟩
    · dsimp only
      rw [inBounds_bind (slice_zero (by omega)), inBounds_bind (slice_zero (by omega)),
        List.take_of_length_le (by omega), List.take_of_length_le (by omega),
        assertThat_bind hempty, inBounds_bind (fill_eq (by rw [hlen]; decide) none), hlen]
      rfl
    all_goals
      simp only [INode.type, NodeType.capacity, NodeType.minSize]
      omega
  | i48 childIndexes children =>
    simp only [INode.type, NodeType.capacity] at hfull
    -- All children are found before the end of the table.
    have hcopy : copyInto256 childIndexes children allBytes 0 (fun _ => none) = .ok _ :=
      copyInto256_spec hl allBytes_nodup (fun b hb => absurd (mem_allBytes b) hb) (fun _ _ => rfl)
        (by rw [Nat.zero_add]; exact (boundBytes_length _).trans hfull) (by omega)
    refine ⟨⟨keyPrefix, 49, .i256 (Function.update _ b (some p))⟩, ?_, ⟨rfl, ?_, ?_, ?_⟩, rfl, rfl⟩
    · simp only [hcopy]
      change (do
        assertThat (_ = none)
        pure _) = _
      rw [assertThat_pos hb]
      rfl
    all_goals
      simp only [INode.type, NodeType.capacity, NodeType.minSize]
      omega
  | i256 children => exact absurd rfl htype

/-- `add_two_to_empty` binds two different key bytes. -/
theorem addTwoToEmpty_spec (keyPrefix : KeyPrefix) {k1 k2 : UInt8} (hne : k1 ≠ k2) (c1 c2 : P) :
    ∃ n, addTwoToEmpty keyPrefix k1 c1 k2 c2 = .ok n ∧
      n.Rep (Function.update (Function.update (fun _ => none) k1 (some c1)) k2 (some c2)) ∧
      n.keyPrefix = keyPrefix ∧ n.type = .i4 := by
  have hdeg0 : degree (fun _ => none : UInt8 → Option P) = 0 := by
    rw [degree]
    simp
  have hdeg1 := degree_update_some (f := fun _ : UInt8 => (none : Option P)) (a := k1) rfl c1
  -- An empty node, one with the first child, and one with both, in either order.
  have hnone : Function.update (fun _ => none) k1 (some c1) k2 = (none : Option P) := by
    rw [Function.update_of_ne hne.symm]
  have hdeg2 := degree_update_some hnone c2
  have hrep0 : DenseRep 4 [0, 0, 0, 0] [none, none, none, none] 0 (fun _ => none : UInt8 → Option P) :=
    ⟨rfl, rfl, by omega, fun _ hj => absurd hj (by omega), fun hi => absurd hi (by omega),
      fun b p => by simp⟩
  have hrep1 : DenseRep 4 [k1, 0, 0, 0] [some c1, none, none, none] 1
      (Function.update (fun _ => none) k1 (some c1)) := by
    have hpos : DenseRep.InsertPos [0, 0, 0, 0] 0 k1 0 :=
      ⟨le_rfl, fun hi => absurd hi (by omega), fun _ hi => absurd hi (by omega)⟩
    refine hrep0.insert hpos rfl rfl rfl (by omega) ?_ ?_
    · intro j hj
      obtain rfl : j = 0 := by omega
      rfl
    · intro j hj
      obtain rfl : j = 0 := by omega
      rfl
  by_cases hlt : k1 < k2
  · have hrep2 : DenseRep 4 [k1, k2, 0, 0] [some c1, some c2, none, none] 2
        (Function.update (Function.update (fun _ => none) k1 (some c1)) k2 (some c2)) := by
      have hpos : DenseRep.InsertPos [k1, 0, 0, 0] 1 k2 1 := by
        refine ⟨le_rfl, ?_, fun hge hi => absurd hi (by omega)⟩
        intro i a hi ha
        obtain rfl : i = 0 := by omega
        rw [List.getElem?_cons_zero, Option.some_inj] at ha
        rwa [← ha]
      refine hrep1.insert hpos hnone rfl rfl (by omega) ?_ ?_
      · intro j hj
        obtain rfl | rfl : j = 0 ∨ j = 1 := by omega
        · rfl
        · rfl
      · intro j hj
        obtain rfl | rfl : j = 0 ∨ j = 1 := by omega
        · rfl
        · rfl
    refine ⟨⟨keyPrefix, 2, .i4 _ _⟩, ?_, ⟨hrep2, ?_, ?_, ?_⟩, rfl, rfl⟩
    · rw [addTwoToEmpty, assertThat_pos hne, if_pos hlt]
      rfl
    all_goals
      simp only [INode.type, NodeType.capacity, NodeType.minSize]
      omega
  · have hgt : k2 < k1 := lt_of_le_of_ne (le_of_not_gt hlt) hne.symm
    have hrep2 : DenseRep 4 [k2, k1, 0, 0] [some c2, some c1, none, none] 2
        (Function.update (Function.update (fun _ => none) k1 (some c1)) k2 (some c2)) := by
      have hpos : DenseRep.InsertPos [k1, 0, 0, 0] 1 k2 0 := by
        refine ⟨by omega, fun hi => absurd hi (by omega), ?_⟩
        intro i a hge hi ha
        obtain rfl : i = 0 := by omega
        rw [List.getElem?_cons_zero, Option.some_inj] at ha
        rwa [← ha]
      refine hrep1.insert hpos hnone rfl rfl (by omega) ?_ ?_
      · intro j hj
        obtain rfl | rfl : j = 0 ∨ j = 1 := by omega
        · rfl
        · rfl
      · intro j hj
        obtain rfl | rfl : j = 0 ∨ j = 1 := by omega
        · rfl
        · rfl
    refine ⟨⟨keyPrefix, 2, .i4 _ _⟩, ?_, ⟨hrep2, ?_, ?_, ?_⟩, rfl, rfl⟩
    · rw [addTwoToEmpty, assertThat_pos hne, if_neg hlt]
      rfl
    all_goals
      simp only [INode.type, NodeType.capacity, NodeType.minSize]
      omega

/-! ## 3. Removing a child -/

end INode

/-- The two arrays of a sorted node after the gap at a key was closed. -/
theorem DenseRep.shiftDown {capacity : Nat} {keys : List UInt8} {children : List (Option P)}
    {count : Nat} {f : UInt8 → Option P} (h : DenseRep capacity keys children count f) {b : UInt8}
    {ci : Nat} (hci : ci < count) (hb : keys[ci]? = some b) :
    ∃ keys' children', Arrays.shiftDown keys ci (count - 1 - ci) = some keys' ∧
      Arrays.shiftDown children ci (count - 1 - ci) = some children' ∧
      DenseRep capacity keys' children' (count - 1) (Function.update f b none) := by
  have hk := h.keys_length
  have hc := h.children_length
  have hle := h.count_le
  obtain ⟨keys', hkeys, hklen, hkval⟩ := shiftDown_spec
    (show ci + (count - 1 - ci) < keys.length by omega)
  obtain ⟨children', hchildren, hclen, hcval⟩ := shiftDown_spec
    (show ci + (count - 1 - ci) < children.length by omega)
  refine ⟨keys', children', hkeys, hchildren,
    h.erase hci hb (hklen.trans hk) (hclen.trans hc) (by omega) ?_ ?_⟩
  · intro j hj
    rw [hkval]
    by_cases hlt : j < ci
    · rw [if_pos hlt, if_neg (by omega)]
    · rw [if_neg hlt, if_pos (by omega)]
  · intro j hj
    rw [hcval]
    by_cases hlt : j < ci
    · rw [if_pos hlt, if_neg (by omega)]
    · rw [if_neg hlt, if_pos (by omega)]

/-- Copying the table out of which one byte was taken. -/
theorem SparseRep.copyInto16_erase {childIndexes : UInt8 → UInt8} {children : List (Option P)}
    {f : UInt8 → Option P} (h : SparseRep childIndexes children f) (b : UInt8)
    (hdeg : degree (Function.update f b none) = 16) :
    INode.copyInto16 (Function.update childIndexes b emptyChild) children allBytes [] [] =
      .ok (boundBytes (Function.update f b none),
        (boundBytes (Function.update f b none)).map (Function.update f b none)) := by
  apply copyInto16_spec
  · intro x hx
    by_cases hxb : x = b
    · rw [hxb, Function.update_self]
    · rw [Function.update_of_ne hxb] at hx ⊢
      exact h.empty hx
  · intro x hx
    by_cases hxb : x = b
    · rw [hxb, Function.update_self] at hx
      exact absurd rfl hx
    · rw [Function.update_of_ne hxb] at hx ⊢
      rw [Function.update_of_ne hxb]
      exact h.bound hx
  · rfl
  · rw [List.length_nil, Nat.zero_add]
    exact (boundBytes_length _).trans hdeg
  · rw [List.length_nil]
    omega

namespace INode

/-- `remove` unbinds a key byte of a node above its minimum size. -/
theorem WF.remove {n : INode P} (h : n.WF) {b : UInt8} {ci s : Nat}
    (hfind : n.findChild b = some (ci, s)) (hmin : n.type.minSize < degree n.child) :
    ∃ n', n.remove ci = .ok n' ∧ n'.Rep (Function.update n.child b none) ∧
      n'.keyPrefix = n.keyPrefix ∧ n'.type = n.type := by
  obtain ⟨q, hq, -⟩ := h.findChild_eq_some hfind
  have hdeg : degree (Function.update n.child b none) + 1 = degree n.child :=
    degree_update_none (by rw [hq]; rfl)
  have hcount := h.count
  have hcap := h.le_capacity
  have hl := h.layout
  obtain ⟨keyPrefix, count, layout⟩ := n
  rw [INode.remove]
  cases layout with
  | i4 keys children =>
    -- A dense node: the entries above the removed one move down, in both arrays.
    simp only [INode.type, NodeType.capacity, NodeType.minSize] at hcap hmin hcount
    simp only [findChild, Option.map_eq_some_iff] at hfind
    obtain ⟨i, hi, heq⟩ := hfind
    cases heq
    obtain ⟨hlt, hb⟩ := (hl.findKey_eq_some_iff b _).mp hi
    have hk := hl.keys_length
    have hle := hl.count_le
    obtain ⟨p, hp⟩ := hl.defined hlt
    obtain ⟨keys', children', hkeys, hchildren, hrep⟩ := hl.shiftDown hlt hb
    have hk' := hrep.keys_length
    refine ⟨⟨keyPrefix, count - 1, .i4 _ _⟩, ?_, ⟨hrep, ?_, ?_, ?_⟩, rfl, rfl⟩
    · dsimp only
      rw [assertThat_bind hlt, inBounds_bind (slice_zero (by omega)), assertThat_bind hl.pairwise_le,
        inBounds_bind hp, inBounds_bind hkeys, inBounds_bind hchildren,
        inBounds_bind (slice_zero (by omega)), assertThat_bind hrep.pairwise_le]
      rfl
    all_goals
      simp only [INode.type, NodeType.capacity, NodeType.minSize]
      omega
  | i16 keys children =>
    simp only [INode.type, NodeType.capacity, NodeType.minSize] at hcap hmin hcount
    simp only [findChild, Option.map_eq_some_iff] at hfind
    obtain ⟨i, hi, heq⟩ := hfind
    cases heq
    obtain ⟨hlt, hb⟩ := (hl.findKey_eq_some_iff b _).mp hi
    have hk := hl.keys_length
    have hle := hl.count_le
    obtain ⟨p, hp⟩ := hl.defined hlt
    obtain ⟨keys', children', hkeys, hchildren, hrep⟩ := hl.shiftDown hlt hb
    have hk' := hrep.keys_length
    refine ⟨⟨keyPrefix, count - 1, .i16 _ _⟩, ?_, ⟨hrep, ?_, ?_, ?_⟩, rfl, rfl⟩
    · dsimp only
      rw [assertThat_bind hlt, inBounds_bind (slice_zero (by omega)), assertThat_bind hl.pairwise_le,
        inBounds_bind hp, inBounds_bind hkeys, inBounds_bind hchildren,
        inBounds_bind (slice_zero (by omega)), assertThat_bind hrep.pairwise_le]
      rfl
    all_goals
      simp only [INode.type, NodeType.capacity, NodeType.minSize]
      omega
  | i48 childIndexes children =>
    -- A sparse node: the byte's entry and its place are emptied, the other places stay.
    simp only [INode.type, NodeType.capacity, NodeType.minSize] at hcap hmin hcount
    simp only [findChild] at hfind
    split at hfind
    · rename_i hne
      cases hfind
      have hrep := hl.erase hne
      refine ⟨⟨keyPrefix, count - 1, .i48 _ _⟩, ?_, ⟨hrep, ?_, ?_, ?_⟩, rfl, rfl⟩
      · obtain ⟨p, hp, -⟩ := hl.bound hne
        dsimp only
        rw [UInt8.ofNat_toNat, assertThat_bind hne,
          inBounds_bind (store_eq (List.getElem?_eq_some_iff.mp hp).1 _)]
        rfl
      all_goals
        simp only [INode.type, NodeType.capacity, NodeType.minSize]
        omega
    · cases hfind
  | i256 children =>
    simp only [INode.type, NodeType.capacity, NodeType.minSize] at hcap hmin hcount
    simp only [findChild] at hfind
    split at hfind
    · cases hfind
      simp only [Layout.Rep] at hl
      refine ⟨⟨keyPrefix, (count + 255) % 256, .i256 (Function.update children b none)⟩, ?_,
        ⟨?_, ?_, ?_, ?_⟩, rfl, rfl⟩
      -- A direct node: the entry is emptied. The count is kept modulo 256.
      · simp only [UInt8.ofNat_toNat]
        rfl
      · simp only [Layout.Rep]
        rw [← hl]
      all_goals
        simp only [INode.type, NodeType.capacity, NodeType.minSize]
        omega
    · cases hfind

/-- The first entries of an array less one of them, in an array with room for them. -/
theorem dropMid_spec {α : Type} (xs : List α) (pad : α) {ci count capacity : Nat} (hci : ci < count)
    (hcount : count ≤ xs.length) (hcap : count - 1 ≤ capacity) :
    ∃ ys, fill capacity (xs.take ci ++ (xs.take count).drop (ci + 1)) pad = some ys ∧
      ys.length = capacity ∧ ∀ j < count - 1, ys[j]? = if j < ci then xs[j]? else xs[j + 1]? := by
  have hlen : (xs.take ci ++ (xs.take count).drop (ci + 1)).length = count - 1 := by
    simp
    omega
  refine ⟨_, fill_eq (by omega) pad, by rw [List.length_append, List.length_replicate]; omega,
    fun j hj => ?_⟩
  rw [List.getElem?_append_left (by omega), List.getElem?_append, List.length_take,
    Nat.min_eq_left (by omega)]
  by_cases hlt : j < ci
  · rw [if_pos hlt, if_pos hlt, List.getElem?_take_of_lt hlt]
  · rw [if_neg hlt, if_neg hlt, List.getElem?_drop, List.getElem?_take_of_lt (by omega)]
    congr 1
    omega

/-- The constructor of the next smaller type unbinds a key byte of a minimum-size node. -/
theorem WF.shrink {n : INode P} (h : n.WF) {b : UInt8} {ci s : Nat}
    (hfind : n.findChild b = some (ci, s)) (hmin : degree n.child = n.type.minSize)
    (htype : n.type ≠ .i4) :
    ∃ n', n.shrink ci = .ok n' ∧ n'.Rep (Function.update n.child b none) ∧
      n'.keyPrefix = n.keyPrefix ∧ n'.type = n.type.smaller := by
  obtain ⟨q, hq, -⟩ := h.findChild_eq_some hfind
  have hdeg : degree (Function.update n.child b none) + 1 = degree n.child :=
    degree_update_none (by rw [hq]; rfl)
  have hcount := h.count
  have hl := h.layout
  obtain ⟨keyPrefix, count, layout⟩ := n
  rw [INode.shrink]
  cases layout with
  | i4 keys children => exact absurd rfl htype
  | i16 keys children =>
    simp only [INode.type, NodeType.minSize] at hmin hcount
    have hcount5 : count = 5 := by omega
    subst hcount5
    simp only [findChild, Option.map_eq_some_iff] at hfind
    obtain ⟨i, hi, heq⟩ := hfind
    cases heq
    obtain ⟨hlt, hb⟩ := (hl.findKey_eq_some_iff b _).mp hi
    have hk := hl.keys_length
    have hc := hl.children_length
    simp only at hlt
    obtain ⟨p, hp⟩ := hl.defined hlt
    obtain ⟨keys', hkeys, hklen, hkval⟩ := dropMid_spec keys 0 hlt (by omega)
      (show 5 - 1 ≤ NodeType.i4.capacity by decide)
    obtain ⟨children', hchildren, hclen, hcval⟩ := dropMid_spec children none hlt (by omega)
      (show 5 - 1 ≤ NodeType.i4.capacity by decide)
    have hrep : DenseRep 4 keys' children' 4
        (Function.update (INode.mk keyPrefix 5 (.i16 keys children)).child b none) :=
      hl.erase hlt hb hklen hclen (le_refl 4) hkval hcval
    have h4 : NodeType.i4.capacity = 4 := rfl
    have h5 : NodeType.i16.minSize = 5 := rfl
    refine ⟨⟨keyPrefix, 4, .i4 _ _⟩, ?_, ⟨hrep, ?_, ?_, ?_⟩, rfl, rfl⟩
    · dsimp only
      rw [inBounds_bind (slice_zero (by omega)), inBounds_bind (slice_zero (by omega)),
        inBounds_bind hp, inBounds_bind (slice_eq (by omega) _),
        inBounds_bind (slice_eq (by omega) _), h5, inBounds_bind hkeys, inBounds_bind hchildren,
        inBounds_bind (slice_zero (by omega)), h4, assertThat_bind hrep.pairwise_le]
      rfl
    all_goals
      simp only [INode.type, NodeType.capacity, NodeType.minSize]
      omega
  | i48 childIndexes children =>
    simp only [INode.type, NodeType.minSize] at hmin hcount
    simp only [findChild] at hfind
    split at hfind
    · rename_i hne
      cases hfind
      -- Sixteen children are left, which the loop meets in the order of their bytes.
      have hdeg16 : degree (Function.update
          (INode.mk keyPrefix count (.i48 childIndexes children)).child b none) = 16 := by omega
      have hcopy := hl.copyInto16_erase b hdeg16
      have hrep := DenseRep.of_boundBytes (Function.update
          (INode.mk keyPrefix count (.i48 childIndexes children)).child b none)
      rw [hdeg16] at hrep
      refine ⟨⟨keyPrefix, 16, .i16 _ _⟩, ?_, ⟨hrep, ?_, ?_, ?_⟩, rfl, rfl⟩
      · have hsorted := hrep.pairwise_le
        have hk := hrep.keys_length
        have h16 : NodeType.i16.capacity = 16 := rfl
        obtain ⟨p, hp, -⟩ := hl.bound hne
        dsimp only
        rw [UInt8.ofNat_toNat, assertThat_bind hne, inBounds_bind hp]
        simp only [hcopy]
        change (do
          assertThat ((← inBounds (slice (boundBytes _) 0 16)).Pairwise (· ≤ ·))
          pure _) = _
        rw [inBounds_bind (slice_zero (by omega)), assertThat_bind hsorted]
        rfl
      all_goals
        simp only [INode.type, NodeType.capacity, NodeType.minSize]
        omega
    · cases hfind
  | i256 children =>
    simp only [INode.type, NodeType.minSize] at hmin hcount
    simp only [findChild] at hfind
    split at hfind
    · cases hfind
      simp only [Layout.Rep] at hl
      -- Forty-eight children are left, which get the places in the order of their bytes.
      have hdeg48 : degree (Function.update
          (INode.mk keyPrefix count (.i256 children)).child b none) = 48 := by omega
      rw [← hl] at hdeg48
      have hinit : Filled (Function.update children b none) allBytes (fun _ => emptyChild) [] :=
        ⟨fun _ _ => rfl, fun _ _ _ => rfl, fun x hx => absurd (mem_allBytes x) hx,
          fun hx => absurd (mem_allBytes _) hx, fun i hi => absurd hi (by simp), by simp⟩
      obtain ⟨ci', children', hcopy, hfilled, hlen⟩ := copyInto48_filled allBytes_nodup hinit
        (by rw [List.length_nil, Nat.zero_add]; exact (boundBytes_length _).trans hdeg48) (by simp)
      have hrep := hfilled.sparse hlen
      refine ⟨⟨keyPrefix, 48, .i48 ci' children'⟩, ?_, ⟨?_, ?_, ?_, ?_⟩, rfl, rfl⟩
      · simp only [UInt8.ofNat_toNat, hcopy]
        rfl
      · simp only [Layout.Rep]
        rw [← hl]
        exact hrep
      all_goals
        simp only [INode.type, NodeType.capacity, NodeType.minSize]
        omega
    · cases hfind

/-- Of the two children of a minimum-size `basic_inode_4` the other one is kept. -/
theorem WF.lastChild {n : INode P} (h : n.WF) {b : UInt8} {ci s : Nat}
    (hfind : n.findChild b = some (ci, s)) (htype : n.type = .i4) (hmin : degree n.child = 2) :
    ∃ b' p', n.lastChild ci = .ok (b', p') ∧ b' ≠ b ∧ n.child b' = some p' ∧
      ∀ x, (n.child x).isSome → x = b ∨ x = b' := by
  have hcount := h.count
  have hl := h.layout
  obtain ⟨keyPrefix, count, layout⟩ := n
  cases layout with
  | i4 keys children =>
    have hcount2 : count = 2 := by
      simp only at hcount
      omega
    subst hcount2
    simp only [findChild, Option.map_eq_some_iff] at hfind
    obtain ⟨i, hi, heq⟩ := hfind
    cases heq
    obtain ⟨hlt, hb⟩ := (hl.findKey_eq_some_iff b _).mp hi
    simp only at hlt
    obtain ⟨j, hj, hjne, hjval⟩ : ∃ j, j < 2 ∧ j ≠ ci ∧ j = if ci = 0 then 1 else 0 := by
      refine ⟨_, ?_, ?_, rfl⟩ <;> split <;> omega
    obtain ⟨b', p', hb', hp', hf'⟩ := hl.key_exists hj
    refine ⟨b', p', ?_, ?_, hf', ?_⟩
    · have hassert : (INode.mk keyPrefix 2 (.i4 keys children)).isMinSize ∧ (ci = 0 ∨ ci = 1) := by
        refine ⟨rfl, by omega⟩
      obtain ⟨q, hq⟩ := hl.defined hlt
      rw [INode.lastChild, assertThat_bind hassert]
      dsimp only
      rw [inBounds_bind hq]
      simp only [← hjval, hb', hp', Option.join_some]
      rfl
    · rintro rfl
      exact hjne (hl.index_inj hj hlt hb' hb)
    · intro x hx
      obtain ⟨p, hp⟩ := Option.isSome_iff_exists.mp hx
      obtain ⟨k, hk, hxk, -⟩ := (hl.spec x p).mp hp
      simp only at hk
      by_cases hki : k = ci
      · subst hki
        rw [hb, Option.some_inj] at hxk
        exact .inl hxk.symm
      · have hkj : k = j := by omega
        subst hkj
        rw [hb', Option.some_inj] at hxk
        exact .inr hxk.symm
  | i16 keys children => exact absurd htype (by simp [INode.type])
  | i48 childIndexes children => exact absurd htype (by simp [INode.type])
  | i256 children => exact absurd htype (by simp [INode.type])

end INode

end Unodb
