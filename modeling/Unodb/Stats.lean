import Unodb.Tree.Basic
import Mathlib.Algebra.Order.BigOperators.Group.Finset

/-!
# Statistics counters

The counters that both databases keep, and what they count: the nodes in memory by type, and the
memory these take.  Allocation and deallocation update the counters together with the heap.
-/

open Finset

namespace Unodb

/-- The statistics fields of a database, natural numbers where the source has 64-bit words; the
    counters of growing and shrinking nodes have no entry for leaves in the source. -/
structure Stats where
  nodeCounts : NodeType → Nat := fun _ => 0
  currentMemoryUse : Nat := 0
  growingInodeCounts : NodeType → Nat := fun _ => 0
  shrinkingInodeCounts : NodeType → Nat := fun _ => 0
  keyPrefixSplits : Nat := 0

/-- `sizeof` of the node classes. -/
structure Sizes where
  leaf : Nat
  inode : NodeType → Nat
  leaf_pos : 1 < leaf
  inode_pos : ∀ type, 0 < inode type

/-- The size that is accounted for a node: `sizeof` for an inner node, `compute_size` for a leaf,
    whose class ends in a one-byte array. -/
def Sizes.of (sizes : Sizes) : Body → Nat
  | .leaf key value => sizes.leaf + key.length + value.length - 1
  | .inode n => sizes.inode n.type

namespace Stats

/-- `increment_leaf_count` and `increment_inode_count`, but for the assertion that the memory use does
    not overflow. -/
def increment (st : Stats) (size : Nat) (type : NodeType) : Except Fault Stats := do
  assertThat (0 < size)
  return { st with
    currentMemoryUse := st.currentMemoryUse + size
    nodeCounts := Function.update st.nodeCounts type (st.nodeCounts type + 1) }

/-- `decrement_leaf_count` and `decrement_inode_count`. -/
def decrement (st : Stats) (size : Nat) (type : NodeType) : Except Fault Stats := do
  assertThat (0 < size ∧ size ≤ st.currentMemoryUse ∧ 0 < st.nodeCounts type)
  return { st with
    currentMemoryUse := st.currentMemoryUse - size
    nodeCounts := Function.update st.nodeCounts type (st.nodeCounts type - 1) }

/-- The counter of `account_growing_inode`. -/
def grown (st : Stats) (type : NodeType) : Stats :=
  { st with growingInodeCounts :=
      Function.update st.growingInodeCounts type (st.growingInodeCounts type + 1) }

/-- The counter of `account_shrinking_inode`. -/
def shrunk (st : Stats) (type : NodeType) : Stats :=
  { st with shrinkingInodeCounts :=
      Function.update st.shrinkingInodeCounts type (st.shrinkingInodeCounts type + 1) }

/-- The counters that `clear` resets. -/
def cleared (st : Stats) : Stats :=
  { st with
    currentMemoryUse := 0
    nodeCounts := fun type => if type = .leaf then st.nodeCounts .leaf else 0 }

/-- The number of inner nodes of a type or a larger one. -/
def countFrom (st : Stats) : NodeType → Nat
  | .leaf => 0
  | .i4 => st.nodeCounts .i4 + st.nodeCounts .i16 + st.nodeCounts .i48 + st.nodeCounts .i256
  | .i16 => st.nodeCounts .i16 + st.nodeCounts .i48 + st.nodeCounts .i256
  | .i48 => st.nodeCounts .i48 + st.nodeCounts .i256
  | .i256 => st.nodeCounts .i256

end Stats

/-! ## 1. Counters of the nodes in memory -/

/-- The weight of all nodes in memory, for a weight of single nodes. -/
def Tree.total (t : Tree) (weight : Body → Nat) (next : Nat) : Nat :=
  ∑ a ∈ range next, ((t.heap a).map weight).getD 0

/-- The weight that counts the nodes of one type. -/
def Body.countType (type : NodeType) (body : Body) : Nat := if body.type = type then 1 else 0

theorem Tree.total_set (t : Tree) (weight : Body → Nat) {next a : Nat} (ha : a < next)
    (body : Option Body) :
    (t.set a body).total weight next + ((t.heap a).map weight).getD 0 =
      t.total weight next + (body.map weight).getD 0 := by
  have hmem : a ∈ range next := mem_range.mpr ha
  rw [total, total, ← add_sum_erase _ _ hmem, ← add_sum_erase (range next) _ hmem]
  have hrest : ∑ x ∈ (range next).erase a, (((t.set a body).heap x).map weight).getD 0 =
      ∑ x ∈ (range next).erase a, ((t.heap x).map weight).getD 0 := by
    refine sum_congr rfl fun x hx => ?_
    rw [set_heap, if_neg (ne_of_mem_erase hx)]
  rw [hrest, set_heap, if_pos rfl]
  omega

theorem Tree.total_succ (t : Tree) (weight : Body → Nat) (next : Nat) :
    t.total weight (next + 1) = t.total weight next + ((t.heap next).map weight).getD 0 := by
  rw [total, sum_range_succ, total]

/-- The counters count what is in memory; nothing is at the addresses not yet given out. -/
structure Accounted (sizes : Sizes) (t : Tree) (next : Nat) (st : Stats) : Prop where
  fresh : ∀ {a}, next ≤ a → t.heap a = none
  counts : ∀ type, st.nodeCounts type = t.total (Body.countType type) next
  memory : st.currentMemoryUse = t.total sizes.of next

namespace Accounted

variable {sizes : Sizes} {t : Tree} {next a : Nat} {st : Stats} {body body' : Body}

theorem size_pos (sizes : Sizes) (body : Body) : 0 < sizes.of body := by
  cases body with
  | leaf key value =>
    have := sizes.leaf_pos
    simp only [Sizes.of]
    omega
  | inode n => exact sizes.inode_pos n.type

theorem lt_next (h : Accounted sizes t next st) (ha : t.heap a = some body) : a < next := by
  by_contra hge
  rw [h.fresh (Nat.le_of_not_lt hge)] at ha
  cases ha

theorem le_total (h : Accounted sizes t next st) (ha : t.heap a = some body)
    (weight : Body → Nat) : weight body ≤ t.total weight next := by
  have hmem : a ∈ range next := mem_range.mpr (h.lt_next ha)
  have hle := single_le_sum (f := fun x => ((t.heap x).map weight).getD 0)
    (fun _ _ => Nat.zero_le _) hmem
  rwa [ha] at hle

theorem nodeCounts_pos (h : Accounted sizes t next st) (ha : t.heap a = some body) :
    0 < st.nodeCounts body.type := by
  have hle := h.le_total ha (Body.countType body.type)
  rw [← h.counts, Body.countType, if_pos rfl] at hle
  exact hle

/-- The counters after a new node is counted. -/
def counted (sizes : Sizes) (st : Stats) (body : Body) : Stats :=
  { st with
    currentMemoryUse := st.currentMemoryUse + sizes.of body
    nodeCounts := Function.update st.nodeCounts body.type (st.nodeCounts body.type + 1) }

/-- The counters after a node is no longer counted. -/
def uncounted (sizes : Sizes) (st : Stats) (body : Body) : Stats :=
  { st with
    currentMemoryUse := st.currentMemoryUse - sizes.of body
    nodeCounts := Function.update st.nodeCounts body.type (st.nodeCounts body.type - 1) }

theorem uncounted_counted (sizes : Sizes) (st : Stats) (body : Body) :
    uncounted sizes (counted sizes st body) body = st := by
  simp [uncounted, counted]

/-- Inner nodes of one type count alike. -/
theorem counted_inode (sizes : Sizes) (st : Stats) {n n' : INode NodePtr} (htype : n'.type = n.type) :
    counted sizes st (.inode n') = counted sizes st (.inode n) := by
  simp only [counted, Body.type, Sizes.of, htype]

theorem uncounted_inode (sizes : Sizes) (st : Stats) {n n' : INode NodePtr}
    (htype : n'.type = n.type) :
    uncounted sizes st (.inode n') = uncounted sizes st (.inode n) := by
  simp only [uncounted, Body.type, Sizes.of, htype]

theorem increment_eq (sizes : Sizes) (st : Stats) (body : Body) :
    st.increment (sizes.of body) body.type = .ok (counted sizes st body) := by
  rw [Stats.increment, assertThat_pos (size_pos sizes body)]
  rfl

/-- A new node at the next address. -/
theorem alloc (h : Accounted sizes t next st) (body : Body) :
    Accounted sizes (t.set next (some body)) (next + 1) (counted sizes st body) := by
  have hnone : t.heap next = none := h.fresh (Nat.le_refl next)
  have hold : ∀ weight, (t.set next (some body)).total weight next = t.total weight next := by
    intro weight
    refine sum_congr rfl fun x hx => ?_
    rw [Tree.set_heap, if_neg (by have := mem_range.mp hx; omega)]
  refine ⟨?_, ?_, ?_⟩
  · intro x hx
    rw [Tree.set_heap, if_neg (by omega)]
    exact h.fresh (by omega)
  · intro type
    rw [Tree.total_succ, hold, ← h.counts type, Tree.set_heap, if_pos rfl]
    simp only [counted, Function.update_apply, Option.map_some, Option.getD_some, Body.countType]
    by_cases htype : type = body.type
    · rw [if_pos htype, if_pos htype.symm, htype]
    · rw [if_neg htype, if_neg (Ne.symm htype), Nat.add_zero]
  · rw [Tree.total_succ, hold, Tree.set_heap, if_pos rfl]
    simp only [counted, Option.map_some, Option.getD_some, h.memory]

/-- A node in memory is counted, so the assertions on the way out of it hold. -/
theorem decrement_eq (h : Accounted sizes t next st) (ha : t.heap a = some body) :
    st.decrement (sizes.of body) body.type = .ok (uncounted sizes st body) := by
  have hsize := h.le_total ha sizes.of
  rw [← h.memory] at hsize
  have hcount := h.nodeCounts_pos ha
  rw [Stats.decrement, assertThat_pos ⟨size_pos sizes body, hsize, hcount⟩]
  rfl

/-- Addresses that are given out and not in use do not matter. -/
theorem mono (h : Accounted sizes t next st) {next' : Nat} (hle : next ≤ next') :
    Accounted sizes t next' st := by
  have htotal : ∀ weight, t.total weight next' = t.total weight next := by
    intro weight
    induction next', hle using Nat.le_induction with
    | base => rfl
    | succ m hle ih => rw [Tree.total_succ, ih, h.fresh hle, Option.map_none, Option.getD_none, add_zero]
  exact ⟨fun ha => h.fresh (Nat.le_trans hle ha), fun type => by rw [htotal, h.counts],
    by rw [htotal, h.memory]⟩

theorem eq_of_decrement {st' : Stats} (h : st.decrement (sizes.of body) body.type = .ok st') :
    st' = uncounted sizes st body := by
  rw [Stats.decrement, assertThat] at h
  split at h
  · exact (Except.ok.inj h).symm
  · cases h

/-- A node is taken out of memory. -/
theorem free (h : Accounted sizes t next st) (ha : t.heap a = some body) :
    Accounted sizes (t.set a none) next (uncounted sizes st body) := by
  have hlt := h.lt_next ha
  have htotal : ∀ weight, (t.set a none).total weight next + weight body = t.total weight next := by
    intro weight
    have := t.total_set weight hlt none
    rw [ha] at this
    exact this
  refine ⟨?_, ?_, ?_⟩
  · intro x hx
    rw [Tree.set_heap]
    split
    · rfl
    · exact h.fresh hx
  · intro type
    have := htotal (Body.countType type)
    simp only [uncounted, Function.update_apply]
    by_cases htype : type = body.type
    · subst htype
      rw [Body.countType, if_pos rfl] at this
      rw [if_pos rfl, h.counts]
      omega
    · rw [Body.countType, if_neg (Ne.symm htype)] at this
      rw [if_neg htype, h.counts]
      omega
  · have := htotal sizes.of
    simp only [uncounted, h.memory]
    omega

/-- A node in memory changes but not its type or its size. -/
theorem update (h : Accounted sizes t next st) (ha : t.heap a = some body)
    (htype : body'.type = body.type) (hsize : sizes.of body' = sizes.of body) :
    Accounted sizes (t.set a (some body')) next st := by
  have hlt := h.lt_next ha
  have htotal : ∀ weight : Body → Nat, weight body' = weight body →
      (t.set a (some body')).total weight next = t.total weight next := by
    intro weight hweight
    have := t.total_set weight hlt (some body')
    rw [ha, Option.map_some, Option.map_some, Option.getD_some, Option.getD_some, hweight] at this
    omega
  refine ⟨?_, ?_, ?_⟩
  · intro x hx
    rw [Tree.set_heap, if_neg (by omega)]
    exact h.fresh hx
  · intro type
    rw [h.counts, htotal _ (by rw [Body.countType, Body.countType, htype])]
  · rw [h.memory, htotal _ hsize]

/-- Nodes in memory may change as long as none changes its type or its size. -/
theorem congr {t' : Tree} (h : Accounted sizes t next st)
    (hsame : ∀ a, (t'.heap a).map (fun body => (body.type, sizes.of body)) =
      (t.heap a).map fun body => (body.type, sizes.of body)) : Accounted sizes t' next st := by
  have htotal : ∀ weight : NodeType × Nat → Nat,
      t'.total (fun body => weight (body.type, sizes.of body)) next =
        t.total (fun body => weight (body.type, sizes.of body)) next := by
    intro weight
    refine sum_congr rfl fun a _ => ?_
    have := congrArg (Option.map weight) (hsame a)
    rw [Option.map_map, Option.map_map] at this
    exact congrArg (Option.getD · 0) this
  refine ⟨fun {a} ha => ?_, fun type => ?_, ?_⟩
  · have := hsame a
    rw [h.fresh ha, Option.map_none, Option.map_eq_none_iff] at this
    exact this
  · rw [h.counts]
    exact (htotal fun r => if r.1 = type then 1 else 0).symm
  · rw [h.memory]
    exact (htotal Prod.snd).symm

theorem updateInode {n m : INode NodePtr} (h : Accounted sizes t next st)
    (ha : t.heap a = some (.inode n)) (htype : m.type = n.type) :
    Accounted sizes (t.set a (some (.inode m))) next st :=
  h.update ha htype (by rw [Sizes.of, Sizes.of, htype])

theorem store (h : Accounted sizes t next st) (sl : Slot) (p : NodePtr) :
    Accounted sizes (t.store sl p) next st := by
  cases sl with
  | root => exact ⟨h.fresh, h.counts, h.memory⟩
  | child q i =>
    simp only [Tree.store]
    split
    · rename_i n hn
      exact h.updateInode hn (INode.setSlot_type n i p)
    · exact h

end Accounted

/-! ## 2. Counters of growing and shrinking nodes -/

/-- Each inner node in memory of a type or a larger one is the result of a growth to that type that
    no shrinking has undone; `lost` are those that went with a whole tree. -/
structure Balanced (lost : NodeType → Nat) (st : Stats) : Prop where
  balance : ∀ type ≠ .leaf,
    st.shrinkingInodeCounts type + st.countFrom type + lost type = st.growingInodeCounts type
  splits : st.keyPrefixSplits = 0 ∨ st.keyPrefixSplits < st.growingInodeCounts .i4

theorem Stats.nodeCounts_le_countFrom (st : Stats) {type : NodeType} (htype : type ≠ .leaf) :
    st.nodeCounts type ≤ st.countFrom type := by
  cases type <;> simp only [Stats.countFrom] <;> first | omega | exact absurd rfl htype

theorem Stats.countFrom_le (st : Stats) (type : NodeType) :
    st.countFrom type ≤ st.countFrom .i4 := by
  cases type <;> simp only [Stats.countFrom] <;> omega

namespace Balanced

variable {lost : NodeType → Nat} {sizes : Sizes} {st st' : Stats}

/-- The counters before any operation. -/
theorem init : Balanced (fun _ => 0) {} := by
  refine ⟨?_, .inl rfl⟩
  intro type _
  cases type <;> rfl

/-- What a change of the counters has to keep. -/
theorem step (h : Balanced lost st)
    (hbalance : ∀ type ≠ .leaf,
      st'.shrinkingInodeCounts type + st'.countFrom type + st.growingInodeCounts type =
        st.shrinkingInodeCounts type + st.countFrom type + st'.growingInodeCounts type)
    (hsplits : st'.keyPrefixSplits = st.keyPrefixSplits)
    (hgrowing : st.growingInodeCounts .i4 ≤ st'.growingInodeCounts .i4) : Balanced lost st' := by
  refine ⟨?_, ?_⟩
  · intro type htype
    have h0 := h.balance type htype
    have h1 := hbalance type htype
    omega
  · have := h.splits
    omega

theorem nodeCounts_le (h : Balanced lost st) (type : NodeType) (htype : type ≠ .leaf) :
    st.nodeCounts type ≤ st.growingInodeCounts type := by
  have h0 := h.balance type htype
  have h1 := st.nodeCounts_le_countFrom htype
  omega

theorem shrinking_le (h : Balanced lost st) (type : NodeType) (htype : type ≠ .leaf) :
    st.shrinkingInodeCounts type ≤ st.growingInodeCounts type := by
  have := h.balance type htype
  omega

/-- A new leaf. -/
theorem counted_leaf (h : Balanced lost st) {leaf : Body} (hleaf : leaf.type = .leaf) :
    Balanced lost (Accounted.counted sizes st leaf) := by
  refine h.step ?_ rfl (Nat.le_refl _)
  intro type htype
  cases type <;> simp [Accounted.counted, Stats.countFrom, hleaf]

theorem uncounted_leaf (h : Balanced lost st) {leaf : Body} (hleaf : leaf.type = .leaf) :
    Balanced lost (Accounted.uncounted sizes st leaf) := by
  refine h.step ?_ rfl (Nat.le_refl _)
  intro type htype
  cases type <;> simp [Accounted.uncounted, Stats.countFrom, hleaf]

/-- A new inner node of two children. -/
theorem create (h : Balanced lost st) (sizes : Sizes) (body : Body) (hbody : body.type = .i4) :
    Balanced lost ((Accounted.counted sizes st body).grown .i4) := by
  refine h.step ?_ rfl ?_
  · intro type htype
    cases type with
    | leaf => exact absurd rfl htype
    | _ =>
      simp [Accounted.counted, Stats.grown, Stats.countFrom, hbody]
      try omega
  · simp [Accounted.counted, Stats.grown]

/-- The counter of prefix splits, for a tree that had an inner node to split. -/
theorem keyPrefixSplit (h : Balanced lost st) (sizes : Sizes) (body : Body) (hbody : body.type = .i4)
    (hcount : 0 < st.countFrom .i4) :
    st.keyPrefixSplits + 1 < ((Accounted.counted sizes st body).grown .i4).growingInodeCounts .i4 ∧
    Balanced lost { (Accounted.counted sizes st body).grown .i4 with
      keyPrefixSplits := st.keyPrefixSplits + 1 } := by
  have hcreate := h.create sizes body hbody
  have hlt : st.keyPrefixSplits + 1 <
      ((Accounted.counted sizes st body).grown .i4).growingInodeCounts .i4 := by
    have h0 := h.balance .i4 (by simp)
    have h1 := h.splits
    simp only [Stats.grown, Accounted.counted, Function.update_self]
    omega
  exact ⟨hlt, hcreate.balance, .inr hlt⟩

/-- An inner node replaced by one of the next larger type. -/
theorem larger (h : Balanced lost st) (body body' : Body) (hbody : body.type ≠ .leaf)
    (h256 : body.type ≠ .i256)
    (htype : body'.type = body.type.larger) (hpos : 0 < st.nodeCounts body.type) :
    Balanced lost
      ((Accounted.uncounted sizes (Accounted.counted sizes st body') body).grown body'.type) := by
  refine h.step ?_ rfl ?_
  · intro type _
    cases hb : body.type <;> rw [hb] at hbody h256 htype hpos <;>
      first
        | exact absurd rfl hbody
        | exact absurd rfl h256
        | cases type <;>
            simp_all [Accounted.counted, Accounted.uncounted, Stats.grown, Stats.countFrom,
              NodeType.larger] <;> omega
  · simp only [Accounted.counted, Accounted.uncounted, Stats.grown, Function.update_apply]
    split <;> rename_i heq
    · rw [← heq]
      omega
    · exact Nat.le_refl _

/-- An inner node replaced by one of the next smaller type, which leaves out a leaf. -/
theorem smaller (h : Balanced lost st) (body body' : Body) {leaf : Body} (hleaf : leaf.type = .leaf)
    (hbody : body.type ≠ .leaf)
    (h4 : body.type ≠ .i4) (htype : body'.type = body.type.smaller)
    (hpos : 0 < st.nodeCounts body.type) :
    Balanced lost ((Accounted.uncounted sizes (Accounted.uncounted sizes
      (Accounted.counted sizes st body') leaf) body).shrunk body.type) := by
  refine h.step ?_ rfl (Nat.le_refl _)
  intro type _
  cases hb : body.type <;> rw [hb] at hbody h4 htype hpos <;>
    first
      | exact absurd rfl hbody
      | exact absurd rfl h4
      | cases type <;>
          simp_all [Accounted.counted, Accounted.uncounted, Stats.shrunk, Stats.countFrom,
            NodeType.smaller] <;> omega

/-- An inner node of two children taken away. -/
theorem collapse (h : Balanced lost st) (body : Body) (hbody : body.type = .i4)
    (hpos : 0 < st.nodeCounts body.type) :
    Balanced lost ((Accounted.uncounted sizes st body).shrunk .i4) := by
  refine h.step ?_ rfl (Nat.le_refl _)
  rw [hbody] at hpos
  intro type htype
  cases type with
  | leaf => exact absurd rfl htype
  | _ =>
    simp [Accounted.uncounted, Stats.shrunk, Stats.countFrom, hbody]
    try omega

end Balanced

end Unodb
