import Unodb.Db.Exec

/-!
# Insertion into `db`

The invariant of `db`, and the branches of `insert_internal`: each ends without a fault in a state
that is written out, keeps the invariant and adds the binding.
-/

open Arrays

namespace Unodb

namespace Db

/-- The invariant of a `db` whose keys come from `K`. -/
structure Inv (K : Set (List UInt8)) (path : NodePtr → List UInt8) (lost : NodeType → Nat)
    (s : Db sizes) : Prop where
  tree : s.tree.Inv K path
  accounted : Accounted sizes s.tree s.next s.stats
  balanced : Balanced lost s.stats
  supplied : ∀ type, s.memory type = true

variable {κ : Type} [LawfulArtKey κ] {K : Set (List UInt8)} {path : NodePtr → List UInt8}
  {lost : NodeType → Nat} {s : Db sizes} {sl : Slot} {slot : Radix.Slot NodePtr UInt8} {p : NodePtr}
  {n n' m' : INode NodePtr} {k : κ} {v : List UInt8} {depth : Nat} {rem : κ} {b b' : UInt8}

/-- Addresses that were given out and are free again do not matter. -/
theorem Inv.restored (h : s.Inv K path lost) {next : Nat} (hle : s.next ≤ next) :
    Inv K path lost ({ s with next } : Db sizes) :=
  ⟨h.tree, h.accounted.mono hle, h.balanced, h.supplied⟩

theorem Inv.heap_next (h : s.Inv K path lost) : s.tree.heap s.next = none :=
  h.accounted.fresh (Nat.le_refl _)

theorem Inv.heap_next_succ (h : s.Inv K path lost) : s.tree.heap (s.next + 1) = none :=
  h.accounted.fresh (Nat.le_succ _)

theorem withLeaf_deref_leaf (s : Db sizes) (k : κ) (v : List UInt8) :
    (s.withLeaf k v).tree.deref ⟨s.next, .leaf⟩ = some (.leaf (ArtKey.getKeyView k) v) :=
  s.tree.deref_set_self s.next (.leaf (ArtKey.getKeyView k) v)

/-- What was in memory is still there. -/
theorem Inv.withLeaf_deref (h : s.Inv K path lost) {body : Body} (hp : s.tree.deref p = some body) :
    (s.withLeaf k v).tree.deref p = some body := by
  rw [withLeaf, allocated, Tree.deref_set_ne, hp]
  exact Tree.heap_ne_of_deref hp h.heap_next

theorem Inv.withLeaf_accounted (h : s.Inv K path lost) :
    Accounted sizes (s.withLeaf k v).tree (s.withLeaf k v).next (s.withLeaf k v).stats :=
  h.accounted.alloc _

theorem Inv.withLeaf_balanced (h : s.Inv K path lost) : Balanced lost (s.withLeaf k v).stats :=
  h.balanced.counted_leaf rfl

theorem Inv.withLeaf_supplied (h : s.Inv K path lost) (type : NodeType) :
    (s.withLeaf k v).memory type = true := h.supplied type

/-! ## 1. The first leaf -/

/-- The state after the first leaf is inserted. -/
def insertedRoot (s : Db sizes) (k : κ) (v : List UInt8) : Db sizes :=
  { s.withLeaf k v with tree := s.tree.insertRoot s.next (ArtKey.getKeyView k) v }

theorem insertInternal_root (h : s.Inv K path lost) (hroot : s.tree.root = none)
    (hfits : leafRefusal k v = none) :
    insertInternal k v s = .ok true (s.insertedRoot k v) := by
  rw [insertInternal, DbM.bind_get, if_pos hroot, DbM.bind_ok (makeDbLeafPtr_ok hfits (h.supplied .leaf))]
  rfl

theorem Inv.insertedRoot (h : s.Inv K path lost) (hroot : s.tree.root = none)
    (hk : ArtKey.getKeyView k ∈ K) :
    (s.insertedRoot k v).Inv K (Function.update path ⟨s.next, .leaf⟩ (ArtKey.getKeyView k)) lost ∧
      s.tree.Adds (s.insertedRoot k v).tree (ArtKey.getKeyView k) v := by
  obtain ⟨htree, hadds⟩ := h.tree.insertRoot hroot hk h.heap_next v
  exact ⟨⟨htree, h.withLeaf_accounted.store .root ⟨s.next, .leaf⟩, h.withLeaf_balanced,
    h.supplied⟩, hadds⟩

/-! ## 2. A leaf added to an inner node -/

/-- The state after a leaf is added to a node with room for it. -/
def addedLeaf (s : Db sizes) (p : NodePtr) (n' : INode NodePtr) (k : κ) (v : List UInt8) : Db sizes :=
  { s.withLeaf k v with tree := s.tree.addLeaf p n' s.next (ArtKey.getKeyView k) v }

/-- The state after a full node is replaced by a larger one. -/
def grew (s : Db sizes) (sl : Slot) (p : NodePtr) (n n' : INode NodePtr) (k : κ) (v : List UInt8) :
    Db sizes where
  tree := s.tree.growNode sl p (s.next + 1) n' s.next (ArtKey.getKeyView k) v
  next := s.next + 2
  stats := (Accounted.uncounted sizes
    (Accounted.counted sizes (s.withLeaf k v).stats (.inode n')) (.inode n)).grown n'.type
  memory := s.memory

section Add

variable (h : s.Inv K path lost) (hp : s.tree.deref p = some (.inode n))
  (hfind : n.findChild b = none) (hfits : leafRefusal k v = none)
  (hbyte : (ArtKey.getKeyView k)[depth]? = some b)
include h hp hfind hfits hbyte

theorem addOrChooseSubtree_add
    (hroom : ¬ (p.type ≠ .i256 ∧ n.childrenCount = p.type.capacity))
    (hn' : n.addToNonfull ⟨s.next, .leaf⟩ b n.childrenCount = .ok n') (sl : Slot) :
    addOrChooseSubtree p b k v depth sl s = .ok none (s.addedLeaf p n' k v) := by
  rw [addOrChooseSubtree, DbM.bind_ok (readInode_ok hp)]
  simp only [hfind]
  rw [DbM.bind_ok (makeDbLeafPtr_ok hfits (h.supplied .leaf)), if_neg hroom,
    DbM.bind_ok (readKey_ok (withLeaf_deref_leaf s k v)), DbM.bind_lift (viewByte_eq_ok hbyte),
    DbM.bind_lift hn']
  rfl

omit hfind hfits hbyte in
theorem Inv.addedLeaf (hb : n.child b = none) (hk : ArtKey.getKeyView k ∈ K)
    (hpath : path p ++ [b] <+: ArtKey.getKeyView k)
    (hn' : n'.Rep (Function.update n.child b (some ⟨s.next, .leaf⟩)))
    (hpre : n'.keyPrefix = n.keyPrefix) (htype : n'.type = n.type) :
    (s.addedLeaf p n' k v).Inv K
        (Function.update path ⟨s.next, .leaf⟩ (ArtKey.getKeyView k)) lost ∧
      s.tree.Adds (s.addedLeaf p n' k v).tree (ArtKey.getKeyView k) v := by
  obtain ⟨htree, hadds⟩ := h.tree.addLeaf hp hb hn' hpre htype h.heap_next hk hpath v
  have hheap := (Tree.deref_eq_some_iff.mp (h.withLeaf_deref (k := k) (v := v) hp)).1
  exact ⟨⟨htree, h.withLeaf_accounted.updateInode hheap htype, h.withLeaf_balanced, h.supplied⟩, hadds⟩

variable (hsl : s.tree.SlotAt sl slot) (hread : s.tree.graph.read slot = some p)
include hsl hread

omit hfind hfits hbyte in
/-- The memory of the state after growth, in the order in which the code changes it. -/
theorem Inv.grew_tree (k : κ) (v : List UInt8) (n' : INode NodePtr) :
    ((((s.tree.set s.next (some (.leaf (ArtKey.getKeyView k) v))).set (s.next + 1)
      (some (.inode n'))).set p.addr none).store sl ⟨s.next + 1, n'.type⟩) =
      s.tree.growNode sl p (s.next + 1) n' s.next (ArtKey.getKeyView k) v := by
  have hpx := Tree.heap_ne_of_deref hp h.heap_next
  have hpz := Tree.heap_ne_of_deref hp h.heap_next_succ
  rw [Tree.store_set_comm _ (h.tree.ne_slot hsl hread hp),
    Tree.store_set_comm _ (hsl.ne_of_heap_none h.heap_next_succ),
    Tree.store_set_comm _ (hsl.ne_of_heap_none h.heap_next), Tree.growNode,
    Tree.set_set_comm _ (show s.next ≠ s.next + 1 by omega),
    Tree.set_set_comm _ hpx.symm, Tree.set_set_comm _ hpz.symm]

omit hfind hfits hbyte in
theorem Inv.grew (hb : n.child b = none) (hk : ArtKey.getKeyView k ∈ K)
    (hpath : path p ++ [b] <+: ArtKey.getKeyView k) (h256 : n.type ≠ .i256)
    (hn' : n'.Rep (Function.update n.child b (some ⟨s.next, .leaf⟩)))
    (hpre : n'.keyPrefix = n.keyPrefix) (htype : n'.type = n.type.larger) :
    (s.grew sl p n n' k v).Inv K
        (Function.update (Function.update path ⟨s.next, .leaf⟩ (ArtKey.getKeyView k))
          ⟨s.next + 1, n'.type⟩ (path p)) lost ∧
      s.tree.Adds (s.grew sl p n n' k v).tree (ArtKey.getKeyView k) v := by
  obtain ⟨htree, hadds⟩ := h.tree.growNode hsl hread hp hb hn' hpre h.heap_next h.heap_next_succ
    (show s.next ≠ s.next + 1 by omega) hk hpath v
  have hheap := (Tree.deref_eq_some_iff.mp (h.withLeaf_deref (k := k) (v := v) hp)).1
  refine ⟨⟨htree, ?_, ?_, h.supplied⟩, hadds⟩
  · have hacc := (h.withLeaf_accounted (k := k) (v := v)).alloc (.inode n')
    have hheap' : ((s.withLeaf k v).tree.set (s.withLeaf k v).next (some (.inode n'))).heap p.addr =
        some (.inode n) := by
      have hne : p.addr ≠ (s.withLeaf k v).next := Tree.heap_ne_of_deref hp h.heap_next_succ
      rw [Tree.set_heap, if_neg hne, hheap]
    have hfree := (hacc.free hheap').store sl ⟨s.next + 1, n'.type⟩
    have htree := h.grew_tree hp hsl hread k v n'
    simp only [withLeaf, allocated] at hfree
    rw [htree] at hfree
    exact ⟨hfree.fresh, hfree.counts, hfree.memory⟩
  · exact h.withLeaf_balanced.larger (.inode n) (.inode n') n.type_ne_leaf h256 htype
      (h.withLeaf_accounted.nodeCounts_pos hheap)

theorem addOrChooseSubtree_grow (hfull : p.type ≠ .i256 ∧ n.childrenCount = p.type.capacity)
    (hn' : n.grow ⟨s.next, .leaf⟩ b = .ok n') (htype : n'.type = n.type.larger)
    (h256 : n.type ≠ .i256) :
    addOrChooseSubtree p b k v depth sl s = .ok none (s.grew sl p n n' k v) := by
  have hheap := (Tree.deref_eq_some_iff.mp (h.withLeaf_deref (k := k) (v := v) hp)).1
  have hp1 : ((s.withLeaf k v).allocated (.inode n')).tree.deref p = some (.inode n) := by
    rw [allocated, Tree.deref_set_ne, h.withLeaf_deref hp]
    exact Tree.heap_ne_of_deref hp h.heap_next_succ
  have hbal : Balanced lost (s.grew sl p n n' k v).stats :=
    h.withLeaf_balanced.larger (.inode n) (.inode n') n.type_ne_leaf h256 htype
      (h.withLeaf_accounted.nodeCounts_pos hheap)
  have hcreate : createLarger p ⟨s.next, .leaf⟩ depth (s.withLeaf k v) =
      .ok ⟨s.next + 1, n'.type⟩
        (((s.withLeaf k v).allocated (.inode n')).freed p (.inode n)) := by
    rw [createLarger, DbM.bind_ok (allocate_ok (h.withLeaf_supplied _) _),
      DbM.bind_ok (readInode_ok (h.withLeaf_deref hp)),
      DbM.bind_ok (readKey_ok (withLeaf_deref_leaf s k v)), DbM.bind_lift (viewByte_eq_ok hbyte),
      DbM.bind_lift hn', DbM.bind_ok (alloc_ok _ _),
      DbM.bind_ok (free_ok (h.withLeaf_accounted.alloc _) hp1)]
    rfl
  rw [addOrChooseSubtree, DbM.bind_ok (readInode_ok hp)]
  simp only [hfind]
  rw [DbM.bind_ok (makeDbLeafPtr_ok hfits (h.supplied .leaf)), if_pos hfull, DbM.bind_ok hcreate, storeSlot,
    DbM.bind_modify]
  have hgrowing := hbal.nodeCounts_le n'.type n'.type_ne_leaf
  simp only [Db.grew, Stats.grown, Function.update_self] at hgrowing
  rw [DbM.bind_ok (accountGrowingInode_ok hgrowing)]
  have htree := h.grew_tree hp hsl hread k v n'
  simp only [pure, EStateM.pure, Db.grew, ← htree]
  rfl

end Add

/-! ## 3. An edge split by a new inner node -/

/-- The state after a leaf's edge is split. -/
def splitLeaf (s : Db sizes) (sl : Slot) (n' : INode NodePtr) (k : κ) (v : List UInt8) : Db sizes where
  tree := s.tree.splitLeaf sl (s.next + 1) n' s.next (ArtKey.getKeyView k) v
  next := s.next + 2
  stats := (Accounted.counted sizes (s.withLeaf k v).stats (.inode n')).grown .i4
  memory := s.memory

/-- The state after an inner node's edge is split. -/
def splitPrefix (s : Db sizes) (sl : Slot) (n' : INode NodePtr) (k : κ) (v : List UInt8) (p : NodePtr)
    (m' : INode NodePtr) : Db sizes where
  tree := s.tree.splitPrefix sl (s.next + 1) n' s.next (ArtKey.getKeyView k) v p m'
  next := s.next + 2
  stats := { (Accounted.counted sizes (s.withLeaf k v).stats (.inode n')).grown .i4 with
    keyPrefixSplits := s.stats.keyPrefixSplits + 1 }
  memory := s.memory

section Split

variable (h : s.Inv K path lost) (hsl : s.tree.SlotAt sl slot)
include h hsl

theorem Inv.splitLeaf_tree (k : κ) (v : List UInt8) (n' : INode NodePtr) :
    (((s.tree.set s.next (some (.leaf (ArtKey.getKeyView k) v))).set (s.next + 1)
      (some (.inode n'))).store sl ⟨s.next + 1, n'.type⟩) =
      s.tree.splitLeaf sl (s.next + 1) n' s.next (ArtKey.getKeyView k) v := by
  rw [Tree.store_set_comm _ (hsl.ne_of_heap_none h.heap_next_succ),
    Tree.store_set_comm _ (hsl.ne_of_heap_none h.heap_next), Tree.splitLeaf,
    Tree.set_set_comm _ (show s.next ≠ s.next + 1 by omega)]

variable (hread : s.tree.graph.read slot = some p)
include hread

theorem Inv.splitLeaf {k' v' : List UInt8} (hp : s.tree.deref p = some (.leaf k' v'))
    (hn' : n'.Rep (Tree.twoChildren b p b' s.next)) (htype : n'.type = .i4) (hbb : b ≠ b')
    (hold : slot.start path ++ n'.keyPrefix.bytes ++ [b] <+: k') (hk : ArtKey.getKeyView k ∈ K)
    (hnew : slot.start path ++ n'.keyPrefix.bytes ++ [b'] <+: ArtKey.getKeyView k) :
    (s.splitLeaf sl n' k v).Inv K
        (Function.update (Function.update path ⟨s.next, .leaf⟩ (ArtKey.getKeyView k))
          ⟨s.next + 1, n'.type⟩ (slot.start path ++ n'.keyPrefix.bytes)) lost ∧
      s.tree.Adds (s.splitLeaf sl n' k v).tree (ArtKey.getKeyView k) v := by
  obtain ⟨htree, hadds⟩ := h.tree.splitLeaf hsl hread hp hn' h.heap_next h.heap_next_succ
    (show s.next ≠ s.next + 1 by omega) hbb hold hk hnew v
  refine ⟨⟨htree, ?_, h.withLeaf_balanced.create sizes (.inode n') htype, h.supplied⟩, hadds⟩
  have hacc := ((h.withLeaf_accounted (k := k) (v := v)).alloc (.inode n')).store sl
    ⟨s.next + 1, n'.type⟩
  have htree := h.splitLeaf_tree hsl k v n'
  simp only [withLeaf, allocated] at hacc
  rw [htree] at hacc
  exact ⟨hacc.fresh, hacc.counts, hacc.memory⟩

theorem Inv.splitPrefix_tree (hp : s.tree.deref p = some (.inode n)) (k : κ) (v : List UInt8)
    (n' m' : INode NodePtr) :
    ((((s.tree.set s.next (some (.leaf (ArtKey.getKeyView k) v))).set p.addr
      (some (.inode m'))).set (s.next + 1) (some (.inode n'))).store sl ⟨s.next + 1, n'.type⟩) =
      s.tree.splitPrefix sl (s.next + 1) n' s.next (ArtKey.getKeyView k) v p m' := by
  have hpz := Tree.heap_ne_of_deref hp h.heap_next_succ
  rw [Tree.set_set_comm _ hpz, Tree.store_set_comm _ (h.tree.ne_slot hsl hread hp),
    h.splitLeaf_tree hsl, Tree.splitPrefix]

/-- The accounting of a prefix split: a leaf and an inner node are new, and the old inner node
    keeps its type. -/
theorem Inv.splitPrefix_accounted (hp : s.tree.deref p = some (.inode n))
    (hmtype : m'.type = n.type) :
    Accounted sizes (s.splitPrefix sl n' k v p m').tree (s.splitPrefix sl n' k v p m').next
      (s.splitPrefix sl n' k v p m').stats := by
  have hheap := (Tree.deref_eq_some_iff.mp (h.withLeaf_deref (k := k) (v := v) hp)).1
  have hacc := (((h.withLeaf_accounted (k := k) (v := v)).updateInode hheap hmtype).alloc
    (.inode n')).store sl ⟨s.next + 1, n'.type⟩
  have htree := h.splitPrefix_tree hsl hread hp k v n' m'
  simp only [withLeaf, allocated] at hacc
  rw [htree] at hacc
  exact ⟨hacc.fresh, hacc.counts, hacc.memory⟩

omit hsl hread in
theorem Inv.countFrom_pos (hp : s.tree.deref p = some (.inode n)) :
    0 < s.stats.countFrom .i4 := by
  have h0 := h.accounted.nodeCounts_pos (Tree.deref_eq_some_iff.mp hp).1
  have h1 := s.stats.nodeCounts_le_countFrom n.type_ne_leaf
  have h2 := s.stats.countFrom_le n.type
  have h3 : (Body.inode n).type = n.type := rfl
  rw [h3] at h0
  omega

theorem Inv.splitPrefix (hp : s.tree.deref p = some (.inode n))
    (hn' : n'.Rep (Tree.twoChildren b p b' s.next)) (htype : n'.type = .i4)
    (hm' : m'.Rep n.child) (hmtype : m'.type = n.type) (hbb : b ≠ b')
    (hold : n.keyPrefix.bytes = n'.keyPrefix.bytes ++ [b] ++ m'.keyPrefix.bytes)
    (hk : ArtKey.getKeyView k ∈ K)
    (hnew : slot.start path ++ n'.keyPrefix.bytes ++ [b'] <+: ArtKey.getKeyView k) :
    (s.splitPrefix sl n' k v p m').Inv K
        (Function.update (Function.update path ⟨s.next, .leaf⟩ (ArtKey.getKeyView k))
          ⟨s.next + 1, n'.type⟩ (slot.start path ++ n'.keyPrefix.bytes)) lost ∧
      s.tree.Adds (s.splitPrefix sl n' k v p m').tree (ArtKey.getKeyView k) v := by
  obtain ⟨htree, hadds⟩ := h.tree.splitPrefix hsl hread hp hn' hm' hmtype h.heap_next
    h.heap_next_succ (show s.next ≠ s.next + 1 by omega) hbb hold hk hnew v
  exact ⟨⟨htree, h.splitPrefix_accounted hsl hread hp hmtype,
    (h.withLeaf_balanced.keyPrefixSplit sizes (.inode n') htype (h.countFrom_pos hp)).2,
    h.supplied⟩, hadds⟩

end Split

/-! ## 4. The rounds of the loop -/

section Loop

variable {fuel : Nat} (hload : s.tree.load sl = some p)
include hload

theorem insertLoop_exists {v' : List UInt8}
    (hp : s.tree.deref p = some (.leaf (ArtKey.getKeyView k) v')) :
    insertLoop k v (fuel + 1) sl depth rem s = .ok false s := by
  have htype : p.type = .leaf := (Tree.deref_eq_some_iff.mp hp).2.symm
  rw [insertLoop, DbM.bind_ok (readSlot_ok hload), if_pos htype, DbM.bind_ok (readKey_ok hp),
    if_pos ((ArtKey.cmp_eq_zero_iff _ _).mpr rfl)]
  rfl

theorem insertLoop_splitLeaf (h : s.Inv K path lost) (hsl : s.tree.SlotAt sl slot)
    {k' v' : List UInt8} {kp : KeyPrefix} (hp : s.tree.deref p = some (.leaf k' v'))
    (hne : ArtKey.getKeyView k ≠ k') (hfits : leafRefusal k v = none)
    (hkp : KeyPrefix.make k' rem depth = .ok kp)
    (hn' : INode.initLeafSplit kp k' rem depth p ⟨s.next, .leaf⟩ = .ok n')
    (htype : n'.type = .i4) :
    insertLoop k v (fuel + 1) sl depth rem s = .ok true (s.splitLeaf sl n' k v) := by
  have hptype : p.type = .leaf := (Tree.deref_eq_some_iff.mp hp).2.symm
  have hbal : Balanced lost (s.splitLeaf sl n' k v).stats := h.withLeaf_balanced.create sizes
    (.inode n') htype
  have hgrowing := hbal.nodeCounts_le .i4 (by simp)
  simp only [Db.splitLeaf, Stats.grown, Function.update_self] at hgrowing
  have hcreate : createLeafSplit k' rem depth p ⟨s.next, .leaf⟩ (s.withLeaf k v) =
      .ok ⟨s.next + 1, n'.type⟩ ((s.withLeaf k v).allocated (.inode n')) := by
    rw [createLeafSplit, DbM.bind_ok (allocate_ok (h.withLeaf_supplied .i4) _), DbM.bind_lift hkp,
      DbM.bind_lift hn', alloc_ok]
    rfl
  rw [insertLoop, DbM.bind_ok (readSlot_ok hload), if_pos hptype, DbM.bind_ok (readKey_ok hp),
    if_neg (mt (ArtKey.cmp_eq_zero_iff _ _).mp hne),
    DbM.bind_ok (makeDbLeafPtr_ok hfits (h.supplied .leaf)), DbM.bind_ok hcreate, storeSlot,
    DbM.bind_modify, DbM.bind_ok (accountGrowingInode_ok hgrowing)]
  have htree := h.splitLeaf_tree hsl k v n'
  simp only [pure, EStateM.pure, Db.splitLeaf, ← htree]
  rfl

theorem insertLoop_splitLeaf_error {k' v' : List UInt8} (hp : s.tree.deref p = some (.leaf k' v'))
    (hne : ArtKey.getKeyView k ≠ k') {what : String}
    (hwhat : leafRefusal k v = some what) :
    insertLoop k v (fuel + 1) sl depth rem s = .error (.lengthError what) s := by
  have hptype : p.type = .leaf := (Tree.deref_eq_some_iff.mp hp).2.symm
  rw [insertLoop, DbM.bind_ok (readSlot_ok hload), if_pos hptype, DbM.bind_ok (readKey_ok hp),
    if_neg (mt (ArtKey.cmp_eq_zero_iff _ _).mp hne), DbM.bind_error (makeDbLeafPtr_error hwhat s)]

theorem insertLoop_splitLeaf_stuck (h : s.Inv K path lost) {k' v' : List UInt8} {kp : KeyPrefix}
    (hp : s.tree.deref p = some (.leaf k' v')) (hne : ArtKey.getKeyView k ≠ k')
    (hfits : leafRefusal k v = none) (hkp : KeyPrefix.make k' rem depth = .ok kp)
    (hn' : INode.initLeafSplit kp k' rem depth p ⟨s.next, .leaf⟩ = .error .assertion) :
    insertLoop k v (fuel + 1) sl depth rem s = .error .assertion (s.withLeaf k v) := by
  have hptype : p.type = .leaf := (Tree.deref_eq_some_iff.mp hp).2.symm
  have hcreate : createLeafSplit k' rem depth p ⟨s.next, .leaf⟩ (s.withLeaf k v) =
      .error .assertion (s.withLeaf k v) := by
    rw [createLeafSplit, DbM.bind_ok (allocate_ok (h.withLeaf_supplied .i4) _), DbM.bind_lift hkp, hn']
    rfl
  rw [insertLoop, DbM.bind_ok (readSlot_ok hload), if_pos hptype, DbM.bind_ok (readKey_ok hp),
    if_neg (mt (ArtKey.cmp_eq_zero_iff _ _).mp hne),
    DbM.bind_ok (makeDbLeafPtr_ok hfits (h.supplied .leaf)), DbM.bind_error hcreate]

variable (hp : s.tree.deref p = some (.inode n)) (hptype : p.type ≠ .leaf)
include hp hptype

theorem insertLoop_splitPrefix (h : s.Inv K path lost) (hsl : s.tree.SlotAt sl slot)
    (hread : s.tree.graph.read slot = some p) {kp cut : KeyPrefix}
    (hlt : n.keyPrefix.getSharedLength (ArtKey.getU64 rem) < n.keyPrefix.length)
    (hfits : leafRefusal k v = none)
    (hkp : KeyPrefix.truncate (n.keyPrefix.getSharedLength (ArtKey.getU64 rem)) n.keyPrefix =
      .ok kp)
    (hn' : INode.initPrefixSplit kp n.keyPrefix p
      (n.keyPrefix.getSharedLength (ArtKey.getU64 rem)) depth (ArtKey.getKeyView k)
      ⟨s.next, .leaf⟩ = .ok (n', cut))
    (htype : n'.type = .i4) :
    insertLoop k v (fuel + 1) sl depth rem s =
      .ok true (s.splitPrefix sl n' k v p { n with keyPrefix := cut }) := by
  obtain ⟨hsplits, hbal⟩ := (h.withLeaf_balanced (k := k) (v := v)).keyPrefixSplit sizes
    (.inode n') htype (h.countFrom_pos hp)
  have hgrowing := hbal.nodeCounts_le .i4 (by simp)
  simp only [Stats.grown, Function.update_self] at hgrowing
  have hcreate : createPrefixSplit p (n.keyPrefix.getSharedLength (ArtKey.getU64 rem)) depth
      ⟨s.next, .leaf⟩ (s.withLeaf k v) =
      .ok ⟨s.next + 1, n'.type⟩ (Db.allocated { s.withLeaf k v with
        tree := (s.withLeaf k v).tree.set p.addr (some (.inode { n with keyPrefix := cut })) }
        (.inode n')) := by
    rw [createPrefixSplit, DbM.bind_ok (allocate_ok (h.withLeaf_supplied .i4) _),
      DbM.bind_ok (readInode_ok (h.withLeaf_deref hp)), DbM.bind_lift hkp,
      DbM.bind_ok (readKey_ok (withLeaf_deref_leaf s k v)), DbM.bind_lift hn']
    simp only
    rw [writeInode, DbM.bind_modify, alloc_ok]
    rfl
  rw [insertLoop, DbM.bind_ok (readSlot_ok hload), if_neg hptype, DbM.bind_ok (readInode_ok hp)]
  simp only
  rw [if_pos hlt, DbM.bind_ok (makeDbLeafPtr_ok hfits (h.supplied .leaf)), DbM.bind_ok hcreate, storeSlot,
    DbM.bind_modify, DbM.bind_ok (accountGrowingInode_ok hgrowing),
    DbM.bind_ok (accountKeyPrefixSplit_ok hsplits)]
  have htree := h.splitPrefix_tree hsl hread hp k v n' { n with keyPrefix := cut }
  simp only [pure, EStateM.pure, Db.splitPrefix, ← htree]
  rfl

theorem insertLoop_splitPrefix_error
    (hlt : n.keyPrefix.getSharedLength (ArtKey.getU64 rem) < n.keyPrefix.length)
    {what : String}
    (hwhat : leafRefusal k v = some what) :
    insertLoop k v (fuel + 1) sl depth rem s = .error (.lengthError what) s := by
  rw [insertLoop, DbM.bind_ok (readSlot_ok hload), if_neg hptype, DbM.bind_ok (readInode_ok hp)]
  simp only
  rw [if_pos hlt, DbM.bind_error (makeDbLeafPtr_error hwhat s)]

variable {rem1 rem2 : κ}
  (hshared : n.keyPrefix.getSharedLength (ArtKey.getU64 rem) = n.keyPrefix.length)
  (hrem1 : ArtKey.shiftRight rem n.keyPrefix.length = .ok rem1)
  (hb : ArtKey.byteAt rem1 0 = .ok b)
include hshared hrem1 hb

/-- The part of a round below the prefix of an inner node. -/
theorem insertLoop_pass :
    insertLoop k v (fuel + 1) sl depth rem s =
      (addOrChooseSubtree p b k v (depth + n.keyPrefix.length) sl >>= fun r =>
        match r with
        | none => pure true
        | some child => do
          insertLoop k v fuel child (depth + n.keyPrefix.length + 1)
            (← ArtKey.shiftRight rem1 1)) s := by
  rw [insertLoop, DbM.bind_ok (readSlot_ok hload), if_neg hptype, DbM.bind_ok (readInode_ok hp)]
  simp only
  rw [if_neg (by omega), DbM.bind_lift (assertThat_pos hshared), DbM.bind_lift hrem1]
  exact DbM.bind_lift hb s

theorem insertLoop_child {ci i : Nat} (hfind : n.findChild b = some (ci, i))
    (hrem2 : ArtKey.shiftRight rem1 1 = .ok rem2) :
    insertLoop k v (fuel + 1) sl depth rem s =
      insertLoop k v fuel (.child p.addr i) (depth + n.keyPrefix.length + 1) rem2 s := by
  have hchoose : addOrChooseSubtree p b k v (depth + n.keyPrefix.length) sl s =
      .ok (some (.child p.addr i)) s := by
    rw [addOrChooseSubtree, DbM.bind_ok (readInode_ok hp)]
    simp only [hfind]
    rfl
  rw [insertLoop_pass hload hp hptype hshared hrem1 hb, DbM.bind_ok hchoose]
  simp only
  rw [DbM.bind_lift hrem2]

theorem insertLoop_added {s' : Db sizes}
    (hadd : addOrChooseSubtree p b k v (depth + n.keyPrefix.length) sl s = .ok none s') :
    insertLoop k v (fuel + 1) sl depth rem s = .ok true s' := by
  rw [insertLoop_pass hload hp hptype hshared hrem1 hb, DbM.bind_ok hadd]
  rfl

theorem insertLoop_add_error (hfind : n.findChild b = none) {what : String}
    (hwhat : leafRefusal k v = some what) :
    insertLoop k v (fuel + 1) sl depth rem s = .error (.lengthError what) s := by
  have hadd : addOrChooseSubtree p b k v (depth + n.keyPrefix.length) sl s =
      .error (.lengthError what) s := by
    rw [addOrChooseSubtree, DbM.bind_ok (readInode_ok hp)]
    simp only [hfind]
    rw [DbM.bind_error (makeDbLeafPtr_error hwhat s)]
  rw [insertLoop_pass hload hp hptype hshared hrem1 hb, DbM.bind_error hadd]

end Loop

/-! ## 5. The operation -/

/-- What an insertion can come to: the key is there, the new leaf is refused, or it is added. -/
inductive InsertResult (K : Set (List UInt8)) (lost : NodeType → Nat) (s : Db sizes) (k : κ)
    (v : List UInt8) : EStateM.Result Fault (Db sizes) Bool → Prop where
  | exists {v' : List UInt8} : s.tree.Binds (ArtKey.getKeyView k) v' →
      InsertResult K lost s k v (.ok false s)
  | refused {what : String} : (∀ v', ¬ s.tree.Binds (ArtKey.getKeyView k) v') →
      leafRefusal k v = some what →
      InsertResult K lost s k v (.error (.lengthError what) s)
  | added {s' : Db sizes} {path' : NodePtr → List UInt8} :
      (∀ v', ¬ s.tree.Binds (ArtKey.getKeyView k) v') → leafRefusal k v = none →
      s'.Inv K path' lost →
      s.tree.Adds s'.tree (ArtKey.getKeyView k) v → InsertResult K lost s k v (.ok true s')

section Spec

variable (h : s.Inv K path lost) (hfree : Radix.PrefixFree K) (hk : ArtKey.getKeyView k ∈ K)
  (hat : s.tree.At path (ArtKey.getKeyView k) sl slot depth rem)
  (hread : s.tree.graph.read slot = some p)
include h hfree hk hat hread

/-- The node that is put above a leaf with another key. -/
theorem exists_splitLeaf {k' v' : List UInt8} (hp : s.tree.deref p = some (.leaf k' v'))
    (hne : ArtKey.getKeyView k ≠ k')
    (hpart : (k'.drop depth).take 8 ≠ ((ArtKey.getKeyView k).drop depth).take 8) :
    ∃ kp n', KeyPrefix.make k' rem depth = .ok kp ∧
      INode.initLeafSplit kp k' rem depth p ⟨s.next, .leaf⟩ = .ok n' ∧ n'.type = .i4 ∧
      (s.splitLeaf sl n' k v).Inv K
        (Function.update (Function.update path ⟨s.next, .leaf⟩ (ArtKey.getKeyView k))
          ⟨s.next + 1, n'.type⟩ (slot.start path ++ n'.keyPrefix.bytes)) lost ∧
      s.tree.Adds (s.splitLeaf sl n' k v).tree (ArtKey.getKeyView k) v := by
  obtain ⟨hdepth, hsplit, h12, h21⟩ := hat.rests_of_leaf h.tree hfree hk hread hp hne
  obtain ⟨kp, n', b1, b2, hkp, hn', hpre, htype, hbb, hrep, hb1, hb2⟩ :=
    INode.initLeafSplit_spec hat.rem_drop hdepth h12 h21 hpart p (⟨s.next, .leaf⟩ : NodePtr)
  refine ⟨kp, n', hkp, hn', htype, h.splitLeaf (v := v) hat.slotAt hread hp hrep htype hbb ?_ hk ?_⟩
  · rw [hpre, List.append_assoc]
    calc slot.start path ++ (kp.bytes ++ [b1]) <+: slot.start path ++ k'.drop depth :=
          (List.prefix_append_right_inj _).mpr hb1
      _ = k' := hsplit
  · rw [hpre, List.append_assoc]
    exact hat.isPrefix_append_iff.mpr hb2

/-- What an insertion comes to that meets a key which parts too late from its own. -/
def InsertStuck (path : NodePtr → List UInt8) (s : Db sizes) (k : κ) (v : List UInt8)
    (x : EStateM.Result Fault (Db sizes) Bool) : Prop :=
  leafRefusal k v = none ∧ ¬ s.tree.PartsSoon path (ArtKey.getKeyView k) ∧
    ∃ s', x = .error .assertion s'

theorem insertLoop_leaf {k' v' : List UInt8} {fuel : Nat}
    (hp : s.tree.deref p = some (.leaf k' v')) :
    InsertResult K lost s k v (insertLoop k v (fuel + 1) sl depth rem s) ∨
      InsertStuck path s k v (insertLoop k v (fuel + 1) sl depth rem s) := by
  have hload := (h.tree.load_eq hat.slotAt).trans hread
  by_cases hne : ArtKey.getKeyView k = k'
  · subst hne
    rw [insertLoop_exists hload hp]
    exact .inl (.exists ⟨p.addr, (Tree.deref_eq_some_iff.mp hp).1⟩)
  have hunbound := h.tree.unbound_of_leaf hread hat.start hp hne
  rcases hfits : leafRefusal k v with _ | what
  · by_cases hpart : (k'.drop depth).take 8 = ((ArtKey.getKeyView k).drop depth).take 8
    · obtain ⟨hdepth, -, h12, h21⟩ := hat.rests_of_leaf h.tree hfree hk hread hp hne
      obtain ⟨kp, hkp, hn'⟩ := INode.initLeafSplit_stuck hat.rem_drop hdepth h12 h21 hpart p
        (⟨s.next, .leaf⟩ : NodePtr)
      refine .inr ⟨hfits, fun hsoon => ?_, _,
        insertLoop_splitLeaf_stuck hload h hp hne hfits hkp hn'⟩
      refine hsoon _ _ _ _ hread hat.start hp hne ?_
      rw [hat.depth_eq]
      exact hpart
    · obtain ⟨kp, n', hkp, hn', htype, hinv, hadds⟩ :=
        exists_splitLeaf (v := v) h hfree hk hat hread hp hne hpart
      rw [insertLoop_splitLeaf hload h hat.slotAt hp hne hfits hkp hn' htype]
      exact .inl (.added hunbound hfits hinv hadds)
  · rw [insertLoop_splitLeaf_error hload hp hne hfits]
    exact .inl (.refused hunbound hfits)

variable (hp : s.tree.deref p = some (.inode n))
include hp

/-- The node that is put above an inner node whose prefix the key leaves. -/
theorem exists_splitPrefix
    (hlt : n.keyPrefix.getSharedLength (ArtKey.getU64 rem) < n.keyPrefix.length) :
    ∃ kp n' cut,
      KeyPrefix.truncate (n.keyPrefix.getSharedLength (ArtKey.getU64 rem)) n.keyPrefix = .ok kp ∧
      INode.initPrefixSplit kp n.keyPrefix p
        (n.keyPrefix.getSharedLength (ArtKey.getU64 rem)) depth (ArtKey.getKeyView k)
        ⟨s.next, .leaf⟩ = .ok (n', cut) ∧ n'.type = .i4 ∧
      (s.splitPrefix sl n' k v p { n with keyPrefix := cut }).Inv K
        (Function.update (Function.update path ⟨s.next, .leaf⟩ (ArtKey.getKeyView k))
          ⟨s.next + 1, n'.type⟩ (slot.start path ++ n'.keyPrefix.bytes)) lost ∧
      s.tree.Adds (s.splitPrefix sl n' k v p { n with keyPrefix := cut }).tree
        (ArtKey.getKeyView k) v := by
  obtain ⟨kp, n', cut, b, c, hkp, hn', hpre, htype, hbc, hrep, hbytes, hc⟩ :=
    INode.initPrefixSplit_spec (LawfulArtKey.rem_getU64 hat.rem_drop)
      (hat.not_isPrefix_bytes h.tree hread hp (h.tree.not_isPrefix_path hfree hk hp)) hlt rfl p
      (⟨s.next, .leaf⟩ : NodePtr)
  have hwf : n.WF := h.tree.wf (Tree.deref_eq_some_iff.mp hp).1
  have hm' : INode.Rep { n with keyPrefix := cut } n.child :=
    ⟨hwf.layout, hwf.count, hwf.minSize_le, hwf.le_capacity⟩
  refine ⟨kp, n', cut, hkp, hn', htype,
    h.splitPrefix (v := v) hat.slotAt hread hp hrep htype hm' rfl hbc ?_ hk ?_⟩
  · rw [hpre]
    exact hbytes
  · rw [hpre, List.append_assoc]
    exact hat.isPrefix_append_iff.mpr hc

theorem insertLoop_leaves {fuel : Nat}
    (hlt : n.keyPrefix.getSharedLength (ArtKey.getU64 rem) < n.keyPrefix.length) :
    InsertResult K lost s k v (insertLoop k v (fuel + 1) sl depth rem s) := by
  have hload := (h.tree.load_eq hat.slotAt).trans hread
  have hptype : p.type ≠ .leaf := by
    rw [← (Tree.deref_eq_some_iff.mp hp).2]
    exact n.type_ne_leaf
  have hunbound := h.tree.unbound_of_prefix hread hat.start hp
    (hat.not_path_isPrefix h.tree hread hp (h.tree.stays hfree hk) hlt)
  rcases hfits : leafRefusal k v with _ | what
  · obtain ⟨kp, n', cut, hkp, hn', htype, hinv, hadds⟩ :=
      exists_splitPrefix (v := v) h hfree hk hat hread hp hlt
    rw [insertLoop_splitPrefix hload hp hptype h hat.slotAt hread hlt hfits hkp hn' htype]
    exact .added hunbound hfits hinv hadds
  · rw [insertLoop_splitPrefix_error hload hp hptype hlt hfits]
    exact .refused hunbound hfits

omit hfree in
theorem insertLoop_gap {fuel : Nat} {rem1 : κ}
    (hshared : n.keyPrefix.getSharedLength (ArtKey.getU64 rem) = n.keyPrefix.length)
    (hrem1 : ArtKey.shiftRight rem n.keyPrefix.length = .ok rem1)
    (hb : ArtKey.byteAt rem1 0 = .ok b) (hpath : path p ++ [b] <+: ArtKey.getKeyView k)
    (hbyte : (ArtKey.getKeyView k)[depth + n.keyPrefix.length]? = some b)
    (hfind : n.findChild b = none) :
    InsertResult K lost s k v (insertLoop k v (fuel + 1) sl depth rem s) := by
  have hload := (h.tree.load_eq hat.slotAt).trans hread
  have htag := (Tree.deref_eq_some_iff.mp hp).2
  have hptype : p.type ≠ .leaf := by
    rw [← htag]
    exact n.type_ne_leaf
  have hwf : n.WF := h.tree.wf (Tree.deref_eq_some_iff.mp hp).1
  have hchild := (hwf.findChild_eq_none_iff b).mp hfind
  have hunbound := h.tree.unbound_of_gap hread hat.start hp hpath hchild
  rcases hfits : leafRefusal k v with _ | what
  · have htag' : n.type = p.type := htag
    by_cases hfull : p.type ≠ .i256 ∧ n.childrenCount = p.type.capacity
    · have h256 : n.type ≠ .i256 := htag' ▸ hfull.1
      have hdeg := hwf.degree_of_full h256 (htag' ▸ hfull.2)
      obtain ⟨n', hn', hrep, hpre, htype⟩ := hwf.grow hchild hdeg h256 (⟨s.next, .leaf⟩ : NodePtr)
      have hadd := addOrChooseSubtree_grow (v := v) h hp hfind hfits hbyte hat.slotAt hread hfull
        hn' htype h256
      rw [insertLoop_added hload hp hptype hshared hrem1 hb hadd]
      obtain ⟨hinv, hadds⟩ := h.grew (v := v) hp hat.slotAt hread hchild hk hpath h256 hrep hpre
        htype
      exact .added hunbound hfits hinv hadds
    · have hdeg := hwf.degree_of_room hchild (htag' ▸ hfull)
      obtain ⟨n', hn', hrep, hpre, htype⟩ := hwf.addToNonfull hchild hdeg
        (⟨s.next, .leaf⟩ : NodePtr)
      have hadd := addOrChooseSubtree_add (v := v) h hp hfind hfits hbyte hfull hn' sl
      rw [insertLoop_added hload hp hptype hshared hrem1 hb hadd]
      obtain ⟨hinv, hadds⟩ := h.addedLeaf (v := v) hp hchild hk hpath hrep hpre htype
      exact .added hunbound hfits hinv hadds
  · rw [insertLoop_add_error hload hp hptype hshared hrem1 hb hfind hfits]
    exact .refused hunbound hfits

end Spec

/-- What the loop of an insertion comes to, from any place on the way of its key. -/
theorem insertLoop_cases (h : s.Inv K path lost) (hfree : Radix.PrefixFree K)
    (hk : ArtKey.getKeyView k ∈ K) {fuel : Nat}
    (hat : s.tree.At path (ArtKey.getKeyView k) sl slot depth rem)
    (hread : s.tree.graph.read slot = some p)
    (hfuel : (ArtKey.getKeyView k).length < fuel + depth) :
    InsertResult K lost s k v (insertLoop k v fuel sl depth rem s) ∨
      InsertStuck path s k v (insertLoop k v fuel sl depth rem s) := by
  induction fuel generalizing sl slot depth rem p with
  | zero =>
    have := hat.depth_le
    omega
  | succ fuel ih =>
    by_cases htype : p.type = .leaf
    · obtain ⟨k', v', hp, -⟩ := h.tree.leaf_of_tag hread htype
      exact insertLoop_leaf h hfree hk hat hread hp
    · obtain ⟨n, hp, hwf, -⟩ := h.tree.inode_of_tag hread htype
      by_cases hlt : n.keyPrefix.getSharedLength (ArtKey.getU64 rem) < n.keyPrefix.length
      · exact .inl (insertLoop_leaves h hfree hk hat hread hp hlt)
      · obtain ⟨hshared, rem1, b, rem2, hrem1, hb, hrem2, hpath, hbyte, hlen, hdrop⟩ :=
          hat.pass h.tree hread hp (h.tree.stays hfree hk) hlt
        cases hfind : n.findChild b with
        | none => exact .inl (insertLoop_gap h hk hat hread hp hshared hrem1 hb hpath hbyte hfind)
        | some r =>
          obtain ⟨ci, i⟩ := r
          obtain ⟨q, hq, -⟩ := hwf.findChild_eq_some hfind
          have hload := (h.tree.load_eq hat.slotAt).trans hread
          rw [insertLoop_child hload hp htype hshared hrem1 hb hfind hrem2]
          refine ih (Tree.At.child hp hfind hpath hlen hdrop) (p := q) ?_ (by omega)
          rw [Tree.graph_read_child hp, hq]

theorem insertInternal_cases (h : s.Inv K path lost) (hfree : Radix.PrefixFree K)
    (hk : ArtKey.getKeyView k ∈ K) :
    InsertResult K lost s k v (insertInternal k v s) ∨
      InsertStuck path s k v (insertInternal k v s) := by
  cases hroot : s.tree.root with
  | none =>
    have hunbound : ∀ v', ¬ s.tree.Binds (ArtKey.getKeyView k) v' := by
      intro v' hb
      obtain ⟨x, hx⟩ := Tree.binds_iff.mpr hb
      rw [h.tree.graph.node_eq_none hroot] at hx
      cases hx
    left
    rcases hfits : leafRefusal k v with _ | what
    · rw [insertInternal_root h hroot hfits]
      obtain ⟨hinv, hadds⟩ := h.insertedRoot (v := v) hroot hk
      exact .added hunbound hfits hinv hadds
    · rw [insertInternal, DbM.bind_get, if_pos hroot, DbM.bind_error (makeDbLeafPtr_error hfits s)]
      exact .refused hunbound hfits
  | some root =>
    rw [insertInternal, DbM.bind_get, if_neg (by rw [hroot]; simp)]
    refine insertLoop_cases h hfree hk (Tree.At.root s.tree path k) (p := root) hroot ?_
    rw [LawfulArtKey.size_eq]
    omega

/-- An insertion that meets no key that parts too late from its own. -/
theorem insertInternal_spec (h : s.Inv K path lost) (hfree : Radix.PrefixFree K)
    (hk : ArtKey.getKeyView k ∈ K)
    (hsoon : leafRefusal k v = none → s.tree.PartsSoon path (ArtKey.getKeyView k)) :
    InsertResult K lost s k v (insertInternal k v s) :=
  (insertInternal_cases h hfree hk).resolve_right fun hstuck => hstuck.2.1 (hsoon hstuck.1)

end Db

end Unodb
