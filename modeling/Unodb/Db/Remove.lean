import Unodb.Db.Insert

/-!
# Removal from `db`

The branches of `remove_internal`: each ends without a fault in a state that is written out, keeps
the invariant and takes the binding away.
-/

open Arrays

namespace Unodb

namespace Db

variable {κ : Type} [LawfulArtKey κ] {K : Set (List UInt8)} {path : NodePtr → List UInt8}
  {lost : NodeType → Nat} {s : Db sizes} {sl : Slot} {slot : Radix.Slot NodePtr UInt8} {p c q : NodePtr}
  {n n' m m' : INode NodePtr} {k : κ} {k' v v' : List UInt8} {depth : Nat} {rem : κ} {b b' : UInt8}

/-! ## 1. The last leaf -/

/-- The state after the last leaf is removed. -/
def removedRoot (s : Db sizes) (p : NodePtr) (leaf : Body) : Db sizes :=
  { s with
    tree := s.tree.removeRoot p.addr
    stats := Accounted.uncounted sizes s.stats leaf }

theorem Inv.removedRoot (h : s.Inv K path lost) (hroot : s.tree.root = some p)
    (hp : s.tree.deref p = some (.leaf k' v)) :
    (s.removedRoot p (.leaf k' v)).Inv K path lost ∧
      s.tree.Drops (s.removedRoot p (.leaf k' v)).tree k' := by
  obtain ⟨htree, hdrops⟩ := h.tree.removeRoot hroot hp
  have hacc := h.accounted.free (Tree.deref_eq_some_iff.mp hp).1
  exact ⟨⟨htree, ⟨hacc.fresh, hacc.counts, hacc.memory⟩, h.balanced.uncounted_leaf rfl,
    h.supplied⟩, hdrops⟩

theorem removeInternal_root (h : s.Inv K path lost) (hroot : s.tree.root = some p)
    (hp : s.tree.deref p = some (.leaf (ArtKey.getKeyView k) v)) :
    removeInternal k s = .ok true (s.removedRoot p (.leaf (ArtKey.getKeyView k) v)) := by
  have htype : p.type = .leaf := (Tree.deref_eq_some_iff.mp hp).2.symm
  have hacc : Accounted sizes { s.tree with root := none } s.next s.stats :=
    ⟨h.accounted.fresh, h.accounted.counts, h.accounted.memory⟩
  rw [removeInternal, DbM.bind_get]
  simp only [hroot]
  rw [if_pos htype, DbM.bind_ok (readKey_ok hp), if_pos ((ArtKey.cmp_eq_zero_iff _ _).mpr rfl),
    DbM.bind_modify, DbM.bind_ok (free_ok (s := { s with tree.root := none }) hacc hp)]
  rfl

/-! ## 2. A leaf taken from an inner node -/

/-- The state after a leaf is taken from a node above its minimum size. -/
def removedLeaf (s : Db sizes) (p : NodePtr) (n' : INode NodePtr) (c : NodePtr) (leaf : Body) : Db sizes :=
  { s with
    tree := s.tree.removeLeaf p n' c.addr
    stats := Accounted.uncounted sizes s.stats leaf }

/-- The state after a node of minimum size is replaced by a smaller one. -/
def shrank (s : Db sizes) (sl : Slot) (p : NodePtr) (n n' : INode NodePtr) (c : NodePtr) (leaf : Body) :
    Db sizes where
  tree := s.tree.shrinkNode sl p s.next n' c.addr
  next := s.next + 1
  stats := (Accounted.uncounted sizes (Accounted.uncounted sizes
    (Accounted.counted sizes s.stats (.inode n')) leaf) (.inode n)).shrunk n.type
  memory := s.memory

/-- The state after a two-child node is taken away with a leaf. -/
def collapsed (s : Db sizes) (t : Tree) (n : INode NodePtr) (leaf : Body) : Db sizes :=
  { s with
    tree := t
    stats := (Accounted.uncounted sizes (Accounted.uncounted sizes s.stats leaf)
      (.inode n)).shrunk .i4 }

section Child

variable (h : s.Inv K path lost) (hp : s.tree.deref p = some (.inode n))
  (hb : n.child b = some c) (hc : s.tree.deref c = some (.leaf k' v))
include h hp hb hc

omit hb in
theorem Inv.removedLeaf_accounted (htype : n'.type = n.type) :
    Accounted sizes (s.removedLeaf p n' c (.leaf k' v)).tree s.next
      (s.removedLeaf p n' c (.leaf k' v)).stats := by
  have hpc := Tree.addr_ne_of_leaf_inode hp hc
  have hacc := h.accounted.updateInode (Tree.deref_eq_some_iff.mp hp).1 htype
  have hheap : (s.tree.set p.addr (some (.inode n'))).heap c.addr = some (.leaf k' v) := by
    rw [Tree.set_heap, if_neg hpc.symm, (Tree.deref_eq_some_iff.mp hc).1]
  have hfree := hacc.free hheap
  rw [Tree.set_set_comm _ hpc] at hfree
  exact hfree

theorem Inv.removedLeaf (hn' : n'.Rep (Function.update n.child b none))
    (hpre : n'.keyPrefix = n.keyPrefix) (htype : n'.type = n.type) (hdeg : 2 < degree n.child) :
    (s.removedLeaf p n' c (.leaf k' v)).Inv K path lost ∧
      s.tree.Drops (s.removedLeaf p n' c (.leaf k' v)).tree k' := by
  obtain ⟨htree, hdrops⟩ := h.tree.removeLeaf hp hb hc hn' hpre htype hdeg
  exact ⟨⟨htree, h.removedLeaf_accounted hp hc htype, h.balanced.uncounted_leaf rfl,
    h.supplied⟩, hdrops⟩

variable (hsl : s.tree.SlotAt sl slot) (hread : s.tree.graph.read slot = some p)
include hsl hread

omit hb in
theorem Inv.shrank_tree (n' : INode NodePtr) :
    ((((s.tree.set s.next (some (.inode n'))).set c.addr none).set p.addr none).store sl
      ⟨s.next, n'.type⟩) = s.tree.shrinkNode sl p s.next n' c.addr := by
  have hpc := Tree.addr_ne_of_leaf_inode hp hc
  have hpz := Tree.heap_ne_of_deref hp h.heap_next
  have hcz := Tree.heap_ne_of_deref hc h.heap_next
  rw [Tree.store_set_comm _ (h.tree.ne_slot hsl hread hp),
    Tree.store_set_comm _ (hsl.ne_leaf hc),
    Tree.store_set_comm _ (hsl.ne_of_heap_none h.heap_next), Tree.shrinkNode,
    Tree.set_set_comm _ hcz.symm, Tree.set_set_comm _ hpz.symm, Tree.set_set_comm _ hpc.symm]

omit hb in
theorem Inv.shrank_accounted (n' : INode NodePtr) :
    Accounted sizes (s.shrank sl p n n' c (.leaf k' v)).tree
      (s.shrank sl p n n' c (.leaf k' v)).next (s.shrank sl p n n' c (.leaf k' v)).stats := by
  have hpc := Tree.addr_ne_of_leaf_inode hp hc
  have hpz := Tree.heap_ne_of_deref hp h.heap_next
  have hcz := Tree.heap_ne_of_deref hc h.heap_next
  have hacc := h.accounted.alloc (.inode n')
  have hheapc : (s.tree.set s.next (some (.inode n'))).heap c.addr = some (.leaf k' v) := by
    rw [Tree.set_heap, if_neg hcz, (Tree.deref_eq_some_iff.mp hc).1]
  have hheapp : ((s.tree.set s.next (some (.inode n'))).set c.addr none).heap p.addr =
      some (.inode n) := by
    rw [Tree.set_heap, if_neg hpc, Tree.set_heap, if_neg hpz, (Tree.deref_eq_some_iff.mp hp).1]
  have hfree := ((hacc.free hheapc).free hheapp).store sl ⟨s.next, n'.type⟩
  rw [h.shrank_tree hp hc hsl hread n'] at hfree
  exact ⟨hfree.fresh, hfree.counts, hfree.memory⟩

omit hsl hread hb hc in
theorem Inv.shrank_balanced (h4 : n.type ≠ .i4) (htype : n'.type = n.type.smaller) :
    Balanced lost (s.shrank sl p n n' c (.leaf k' v)).stats :=
  h.balanced.smaller (.inode n) (.inode n') rfl
    n.type_ne_leaf h4 htype (h.accounted.nodeCounts_pos (Tree.deref_eq_some_iff.mp hp).1)

theorem Inv.shrank (hn' : n'.Rep (Function.update n.child b none))
    (hpre : n'.keyPrefix = n.keyPrefix) (h4 : n.type ≠ .i4) (htype : n'.type = n.type.smaller)
    (hdeg : 2 < degree n.child) :
    (s.shrank sl p n n' c (.leaf k' v)).Inv K
        (Function.update path ⟨s.next, n'.type⟩ (path p)) lost ∧
      s.tree.Drops (s.shrank sl p n n' c (.leaf k' v)).tree k' := by
  obtain ⟨htree, hdrops⟩ := h.tree.shrinkNode hsl hread hp hb hc hn' hpre h.heap_next hdeg
  exact ⟨⟨htree, h.shrank_accounted hp hc hsl hread n', h.shrank_balanced hp h4 htype,
    h.supplied⟩, hdrops⟩

omit h hread hb in
theorem collapsed_tree (q : NodePtr) :
    (((s.tree.set c.addr none).store sl q).set p.addr none) =
      s.tree.collapse sl p c.addr q := by
  rw [Tree.store_set_comm _ (hsl.ne_leaf hc), Tree.collapse,
    Tree.set_set_comm _ (Tree.addr_ne_of_leaf_inode hp hc).symm]

omit hb in
theorem Inv.collapsed_accounted (q : NodePtr) :
    Accounted sizes (s.tree.collapse sl p c.addr q) s.next
      (s.collapsed (s.tree.collapse sl p c.addr q) n (.leaf k' v)).stats := by
  have hacc := (h.accounted.free (Tree.deref_eq_some_iff.mp hc).1).store sl q
  have hheapp : ((s.tree.set c.addr none).store sl q).heap p.addr = some (.inode n) := by
    rw [Tree.store_heap_of_ne _ (h.tree.ne_slot hsl hread hp), Tree.set_heap,
      if_neg (Tree.addr_ne_of_leaf_inode hp hc), (Tree.deref_eq_some_iff.mp hp).1]
  have hfree := hacc.free hheapp
  rw [collapsed_tree hp hc hsl q] at hfree
  exact ⟨hfree.fresh, hfree.counts, hfree.memory⟩

omit hb hsl hread in
theorem Inv.collapsed_balanced (h4 : n.type = .i4) (t : Tree) :
    Balanced lost (s.collapsed t n (.leaf k' v)).stats := by
  refine (h.balanced.uncounted_leaf rfl).collapse (.inode n) h4 ?_
  have hheap := (Tree.deref_eq_some_iff.mp hp).1
  have hacc := h.accounted.free (Tree.deref_eq_some_iff.mp hc).1
  refine hacc.nodeCounts_pos (a := p.addr) ?_
  rw [Tree.set_heap, if_neg (Tree.addr_ne_of_leaf_inode hp hc), hheap]

variable (h4 : n.type = .i4) (hb' : n.child b' = some q) (hbb : b' ≠ b)
  (honly : ∀ x, (n.child x).isSome → x = b ∨ x = b')
include h4 hb' hbb honly

theorem Inv.collapsed {k'' : List UInt8} (hq : s.tree.deref q = some (.leaf k'' v')) :
    (s.collapsed (s.tree.collapse sl p c.addr q) n (.leaf k' v)).Inv K path lost ∧
      s.tree.Drops (s.tree.collapse sl p c.addr q) k' := by
  obtain ⟨htree, hdrops⟩ := h.tree.collapse hsl hread hp hb hc hb' hbb honly hq
  exact ⟨⟨htree, h.collapsed_accounted hp hc hsl hread q, h.collapsed_balanced hp hc h4 _,
    h.supplied⟩, hdrops⟩

theorem Inv.collapsedInode (hq : s.tree.deref q = some (.inode m)) (hm' : m'.Rep m.child)
    (hmtype : m'.type = m.type)
    (hpre : m'.keyPrefix.bytes = n.keyPrefix.bytes ++ b' :: m.keyPrefix.bytes) :
    (s.collapsed (s.tree.collapseInode sl p c.addr q m') n (.leaf k' v)).Inv K path lost ∧
      s.tree.Drops (s.tree.collapseInode sl p c.addr q m') k' := by
  obtain ⟨htree, hdrops⟩ := h.tree.collapseInode hsl hread hp hb hc hb' hbb honly hq hm' hmtype hpre
  refine ⟨⟨htree, ?_, h.collapsed_balanced hp hc h4 _,
    h.supplied⟩, hdrops⟩
  have hreadq : s.tree.graph.read (.child p b') = some q := by
    rw [Tree.graph_read_child hp, hb']
  have hqp := h.tree.addr_ne_child hp hreadq hq
  obtain ⟨m0, hm0, hm0type⟩ := Tree.store_deref_inode s.tree sl q hq
  have hheap : (s.tree.collapse sl p c.addr q).heap q.addr = some (.inode m0) := by
    rw [Tree.collapse, Tree.set_heap, if_neg (Tree.addr_ne_of_leaf_inode hq hc), Tree.set_heap,
      if_neg hqp, hm0]
  exact (h.collapsed_accounted hp hc hsl hread q).updateInode hheap
    (hmtype.trans ((Tree.deref_eq_some_iff.mp hq).2.trans hm0type.symm))

end Child

/-! ## 3. The rounds of the loop -/

section Choose

variable (h : s.Inv K path lost) (hp : s.tree.deref p = some (.inode n)) {ci i : Nat}
  (hfind : n.findChild b = some (ci, i)) (hb : n.child b = some c)
  (hc : s.tree.deref c = some (.leaf k' v))
include h hp hfind hb hc

omit hc in
/-- The child that a removal looks at. -/
theorem Inv.load_child : s.tree.load (.child p.addr i) = some c := by
  rw [h.tree.load_eq (.child hp hfind), Tree.graph_read_child hp, hb]

theorem removeOrChooseSubtree_mismatch (hne : ArtKey.getKeyView k ≠ k') (sl : Slot) :
    removeOrChooseSubtree p b k sl s = .ok none s := by
  have hctype : c.type = .leaf := (Tree.deref_eq_some_iff.mp hc).2.symm
  rw [removeOrChooseSubtree, DbM.bind_ok (readInode_ok hp)]
  simp only [hfind]
  rw [DbM.bind_ok (readSlot_ok (h.load_child hp hfind hb)), if_neg (not_not.mpr hctype),
    DbM.bind_ok (readKey_ok hc), if_pos (mt (ArtKey.cmp_eq_zero_iff _ _).mp hne)]
  rfl

variable (hk : ArtKey.getKeyView k = k')
include hk

theorem removeOrChooseSubtree_remove (hmin : ¬ n.isMinSize) (hn' : n.remove ci = .ok n')
    (htype : n'.type = n.type) (sl : Slot) :
    removeOrChooseSubtree p b k sl s = .ok (some none) (s.removedLeaf p n' c (.leaf k' v)) := by
  have hctype : c.type = .leaf := (Tree.deref_eq_some_iff.mp hc).2.symm
  have hpc := Tree.addr_ne_of_leaf_inode hp hc
  have hc1 : (s.tree.set p.addr (some (.inode n'))).deref c = some (.leaf k' v) := by
    rw [Tree.deref_set_ne _ hpc.symm, hc]
  have hacc := h.accounted.updateInode (Tree.deref_eq_some_iff.mp hp).1 htype
  rw [removeOrChooseSubtree, DbM.bind_ok (readInode_ok hp)]
  simp only [hfind]
  rw [DbM.bind_ok (readSlot_ok (h.load_child hp hfind hb)), if_neg (not_not.mpr hctype),
    DbM.bind_ok (readKey_ok hc), if_neg (not_not.mpr ((ArtKey.cmp_eq_zero_iff _ _).mpr hk)),
    if_neg hmin, DbM.bind_lift hn', writeInode, DbM.bind_modify,
    DbM.bind_ok (free_ok (s := { s with tree := s.tree.set p.addr (some (.inode n')) }) hacc hc1)]
  simp only [pure, EStateM.pure, Db.removedLeaf, Tree.removeLeaf, Tree.set_set_comm _ hpc.symm]
  rfl

variable (hsl : s.tree.SlotAt sl slot) (hread : s.tree.graph.read slot = some p)
  (hmin : n.isMinSize)
include hsl hread hmin

theorem removeOrChooseSubtree_shrink (h4 : n.type ≠ .i4) (hn' : n.shrink ci = .ok n')
    (htype : n'.type = n.type.smaller) :
    removeOrChooseSubtree p b k sl s =
      .ok (some none) (s.shrank sl p n n' c (.leaf k' v)) := by
  have hctype : c.type = .leaf := (Tree.deref_eq_some_iff.mp hc).2.symm
  have hptype : n.type = p.type := (Tree.deref_eq_some_iff.mp hp).2
  have hpc := Tree.addr_ne_of_leaf_inode hp hc
  have hpz := Tree.heap_ne_of_deref hp h.heap_next
  have hcz := Tree.heap_ne_of_deref hc h.heap_next
  have hc1 : (s.allocated (.inode n')).tree.deref c = some (.leaf k' v) := by
    rw [allocated, Tree.deref_set_ne _ hcz, hc]
  have hacc1 : Accounted sizes (s.allocated (.inode n')).tree _ _ := h.accounted.alloc (.inode n')
  have hp2 : ((s.allocated (.inode n')).freed c (.leaf k' v)).tree.deref p = some (.inode n) := by
    rw [freed, Tree.deref_set_ne _ hpc, allocated, Tree.deref_set_ne _ hpz, hp]
  have hacc2 := hacc1.free (Tree.deref_eq_some_iff.mp hc1).1
  have hbal : Balanced lost (s.shrank sl p n n' c (.leaf k' v)).stats :=
    h.shrank_balanced hp h4 htype
  have hshrink := hbal.shrinking_le n.type n.type_ne_leaf
  simp only [Db.shrank, Stats.shrunk, Function.update_self] at hshrink
  rw [removeOrChooseSubtree, DbM.bind_ok (readInode_ok hp)]
  simp only [hfind]
  rw [DbM.bind_ok (readSlot_ok (h.load_child hp hfind hb)), if_neg (not_not.mpr hctype),
    DbM.bind_ok (readKey_ok hc), if_neg (not_not.mpr ((ArtKey.cmp_eq_zero_iff _ _).mpr hk)),
    if_pos hmin, if_neg (hptype ▸ h4), DbM.bind_ok (allocate_ok (h.supplied _) none),
    DbM.bind_lift hn', DbM.bind_ok (alloc_ok s _),
    DbM.bind_ok (free_ok hacc1 hc1), DbM.bind_ok (free_ok hacc2 hp2), storeSlot, DbM.bind_modify,
    ← hptype, DbM.bind_ok (accountShrinkingInode_ok ?_)]
  · have htree := h.shrank_tree hp hc hsl hread n'
    simp only [pure, EStateM.pure, Db.shrank, ← htree]
    rfl
  · exact hshrink

variable (h4 : n.type = .i4)
include h4

/-- The part of the collapse of a two-child node that both kinds of other children share: `t1` is
    the tree in which the other child has its new prefix. -/
theorem removeOrChooseSubtree_collapse {t1 : Tree}
    (hleave : leaveLastChild p ci s = .ok q { s with tree := t1 })
    (hc1 : t1.deref c = some (.leaf k' v)) (hp1 : t1.deref p = some (.inode n))
    (hacc : Accounted sizes t1 s.next s.stats) :
    removeOrChooseSubtree p b k sl s =
      .ok (some none) (s.collapsed (((t1.set c.addr none).store sl q).set p.addr none) n
        (.leaf k' v)) := by
  have hctype : c.type = .leaf := (Tree.deref_eq_some_iff.mp hc).2.symm
  have hptype : n.type = p.type := (Tree.deref_eq_some_iff.mp hp).2
  have hacc2 := (hacc.free (Tree.deref_eq_some_iff.mp hc1).1).store sl q
  have hp2 : ((t1.set c.addr none).store sl q).deref p = some (.inode n) := by
    rw [Tree.deref_eq_some_iff, Tree.store_heap_of_ne _ (h.tree.ne_slot hsl hread hp),
      Tree.set_heap, if_neg (Tree.addr_ne_of_leaf_inode hp hc)]
    exact Tree.deref_eq_some_iff.mp hp1
  have hbal : Balanced lost (s.collapsed s.tree n (.leaf k' v)).stats :=
    h.collapsed_balanced hp hc h4 _
  have hshrink := hbal.shrinking_le .i4 (by simp)
  simp only [Db.collapsed, Stats.shrunk, Function.update_self] at hshrink
  rw [removeOrChooseSubtree, DbM.bind_ok (readInode_ok hp)]
  simp only [hfind]
  rw [DbM.bind_ok (readSlot_ok (h.load_child hp hfind hb)), if_neg (not_not.mpr hctype),
    DbM.bind_ok (readKey_ok hc), if_neg (not_not.mpr ((ArtKey.cmp_eq_zero_iff _ _).mpr hk)),
    if_pos hmin, if_pos (hptype ▸ h4), DbM.bind_ok hleave,
    DbM.bind_ok (free_ok (s := { s with tree := t1 }) hacc hc1), storeSlot, DbM.bind_modify,
    DbM.bind_ok (free_ok hacc2 hp2), ← hptype, h4, DbM.bind_ok (accountShrinkingInode_ok ?_)]
  · rfl
  · exact hshrink

/-- The other child is a leaf. -/
theorem removeOrChooseSubtree_collapse_leaf {k'' : List UInt8}
    (hlast : n.lastChild ci = .ok (b', q)) (hq : s.tree.deref q = some (.leaf k'' v')) :
    removeOrChooseSubtree p b k sl s =
      .ok (some none) (s.collapsed (s.tree.collapse sl p c.addr q) n (.leaf k' v)) := by
  have hqtype : q.type = .leaf := (Tree.deref_eq_some_iff.mp hq).2.symm
  have hleave : leaveLastChild p ci s = .ok q { s with tree := s.tree } := by
    rw [leaveLastChild, DbM.bind_ok (readInode_ok hp), DbM.bind_lift hlast]
    simp only
    rw [if_neg (not_not.mpr hqtype)]
    rfl
  rw [removeOrChooseSubtree_collapse h hp hfind hb hc hk hsl hread hmin h4 hleave hc hp
    h.accounted, collapsed_tree hp hc hsl q]

/-- The other child is an inner node. -/
theorem removeOrChooseSubtree_collapse_inode {keyPrefix : KeyPrefix}
    (hlast : n.lastChild ci = .ok (b', q)) (hqp : q.addr ≠ p.addr)
    (hq : s.tree.deref q = some (.inode m))
    (hpre : m.keyPrefix.prepend n.keyPrefix b' = .ok keyPrefix) (hslq : ∀ j, sl ≠ .child q.addr j) :
    removeOrChooseSubtree p b k sl s =
      .ok (some none) (s.collapsed
        (s.tree.collapseInode sl p c.addr q { m with keyPrefix }) n (.leaf k' v)) := by
  have hqtype : q.type ≠ .leaf := by
    rw [← (Tree.deref_eq_some_iff.mp hq).2]
    exact m.type_ne_leaf
  have hqc := Tree.addr_ne_of_leaf_inode hq hc
  have hleave : leaveLastChild p ci s =
      .ok q { s with tree := s.tree.set q.addr (some (.inode { m with keyPrefix })) } := by
    rw [leaveLastChild, DbM.bind_ok (readInode_ok hp), DbM.bind_lift hlast]
    simp only
    rw [if_pos hqtype, DbM.bind_ok (readInode_ok hq), DbM.bind_lift hpre,
      writeInode, DbM.bind_modify]
    rfl
  have hc1 : (s.tree.set q.addr (some (.inode { m with keyPrefix }))).deref c =
      some (.leaf k' v) := by
    rw [Tree.deref_set_ne _ hqc.symm, hc]
  have hp1 : (s.tree.set q.addr (some (.inode { m with keyPrefix }))).deref p =
      some (.inode n) := by
    rw [Tree.deref_set_ne _ hqp.symm, hp]
  have hacc := h.accounted.updateInode (m := { m with keyPrefix })
    (Tree.deref_eq_some_iff.mp hq).1 rfl
  rw [removeOrChooseSubtree_collapse h hp hfind hb hc hk hsl hread hmin h4 hleave hc1 hp1 hacc,
    Tree.set_set_comm _ hqc, Tree.store_set_comm _ hslq, Tree.set_set_comm _ hqp,
    collapsed_tree hp hc hsl q, Tree.collapseInode]

end Choose

section Loop

variable {fuel : Nat} (hload : s.tree.load sl = some p) (hp : s.tree.deref p = some (.inode n))
include hload hp

theorem removeLoop_leaves
    (hlt : n.keyPrefix.getSharedLength (ArtKey.getU64 rem) < n.keyPrefix.length) :
    removeLoop k (fuel + 1) sl rem s = .ok false s := by
  have hptype : p.type ≠ .leaf := by
    rw [← (Tree.deref_eq_some_iff.mp hp).2]
    exact n.type_ne_leaf
  rw [removeLoop, DbM.bind_ok (readSlot_ok hload), DbM.bind_lift (assertThat_pos hptype),
    DbM.bind_ok (readInode_ok hp), if_pos hlt]
  rfl

/-- A round of the loop below the prefix of the node. -/
theorem removeLoop_pass {rem1 : κ} {r : Option (Option Slot)} {s' : Db sizes}
    (hshared : n.keyPrefix.getSharedLength (ArtKey.getU64 rem) = n.keyPrefix.length)
    (hrem1 : ArtKey.shiftRight rem n.keyPrefix.length = .ok rem1)
    (hb : ArtKey.byteAt rem1 0 = .ok b) (hr : removeOrChooseSubtree p b k sl s = .ok r s') :
    removeLoop k (fuel + 1) sl rem s =
      match r with
      | none => .ok false s'
      | some none => .ok true s'
      | some (some child) =>
        ((liftM (ArtKey.shiftRight rem1 1) : DbM sizes κ) >>= removeLoop k fuel child) s' := by
  have hptype : p.type ≠ .leaf := by
    rw [← (Tree.deref_eq_some_iff.mp hp).2]
    exact n.type_ne_leaf
  rw [removeLoop, DbM.bind_ok (readSlot_ok hload), DbM.bind_lift (assertThat_pos hptype),
    DbM.bind_ok (readInode_ok hp), if_neg (by omega), DbM.bind_lift (assertThat_pos hshared),
    DbM.bind_lift hrem1, DbM.bind_lift hb, DbM.bind_ok hr]
  match r with
  | none => rfl
  | some none => rfl
  | some (some child) => rfl

/-- A round that fails. -/
theorem removeLoop_fail {rem1 : κ} {fault : Fault} {s' : Db sizes}
    (hshared : n.keyPrefix.getSharedLength (ArtKey.getU64 rem) = n.keyPrefix.length)
    (hrem1 : ArtKey.shiftRight rem n.keyPrefix.length = .ok rem1)
    (hb : ArtKey.byteAt rem1 0 = .ok b)
    (hr : removeOrChooseSubtree p b k sl s = .error fault s') :
    removeLoop k (fuel + 1) sl rem s = .error fault s' := by
  have hptype : p.type ≠ .leaf := by
    rw [← (Tree.deref_eq_some_iff.mp hp).2]
    exact n.type_ne_leaf
  rw [removeLoop, DbM.bind_ok (readSlot_ok hload), DbM.bind_lift (assertThat_pos hptype),
    DbM.bind_ok (readInode_ok hp), if_neg (by omega), DbM.bind_lift (assertThat_pos hshared),
    DbM.bind_lift hrem1, DbM.bind_lift hb, DbM.bind_error hr]

end Loop

/-! ## 4. The operation -/

/-- What a removal can come to. -/
inductive RemoveResult (K : Set (List UInt8)) (lost : NodeType → Nat) (s : Db sizes) (k : κ) :
    EStateM.Result Fault (Db sizes) Bool → Prop where
  | absent : (∀ v, ¬ s.tree.Binds (ArtKey.getKeyView k) v) → RemoveResult K lost s k (.ok false s)
  | removed {s' : Db sizes} {path' : NodePtr → List UInt8} {v : List UInt8} :
      s.tree.Binds (ArtKey.getKeyView k) v → s'.Inv K path' lost →
      s.tree.Drops s'.tree (ArtKey.getKeyView k) → RemoveResult K lost s k (.ok true s')

/-- The removal of a leaf whose only sibling is an inner node, with prefixes that fit. -/
theorem removeOrChooseSubtree_join (h : s.Inv K path lost) (hslot : s.tree.SlotAt sl slot)
    (hread : s.tree.graph.read slot = some p) (hp : s.tree.deref p = some (.inode n)) {ci i : Nat}
    (hfind : n.findChild b = some (ci, i)) (hb : n.child b = some c)
    (hc : s.tree.deref c = some (.leaf k' v)) (hk : ArtKey.getKeyView k = k') (hmin : n.isMinSize)
    (h4 : n.type = .i4) {b' : UInt8} {q : NodePtr} {m : INode NodePtr}
    (hlast : n.lastChild ci = .ok (b', q)) (hbb : b' ≠ b) (hb' : n.child b' = some q)
    (honly : ∀ x, (n.child x).isSome → x = b ∨ x = b') (hq : s.tree.deref q = some (.inode m))
    (hfit : m.keyPrefix.length + n.keyPrefix.length < keyPrefixCapacity) :
    ∃ keyPrefix : KeyPrefix, m.keyPrefix.prepend n.keyPrefix b' = .ok keyPrefix ∧
      keyPrefix.bytes = n.keyPrefix.bytes ++ b' :: m.keyPrefix.bytes ∧
      removeOrChooseSubtree p b k sl s = .ok (some none) (s.collapsed
        (s.tree.collapseInode sl p c.addr q { m with keyPrefix }) n (.leaf k' v)) ∧
      (s.collapsed (s.tree.collapseInode sl p c.addr q { m with keyPrefix }) n
        (.leaf k' v)).Inv K path lost ∧
      s.tree.Drops (s.tree.collapseInode sl p c.addr q { m with keyPrefix }) k' := by
  have hreadq : s.tree.graph.read (.child p b') = some q := by
    rw [Tree.graph_read_child hp, hb']
  have hmwf : m.WF := h.tree.wf (Tree.deref_eq_some_iff.mp hq).1
  obtain ⟨kp, hkp, hkpbytes⟩ := KeyPrefix.prepend_spec (b := b') hfit
  have hm' : INode.Rep { m with keyPrefix := kp } m.child :=
    ⟨hmwf.layout, hmwf.count, hmwf.minSize_le, hmwf.le_capacity⟩
  have hqp := h.tree.addr_ne_child hp hreadq hq
  have hslq := h.tree.ne_slot_child hslot hread hreadq hq
  obtain ⟨hinv, hdrops⟩ := h.collapsedInode hp hb hc hslot hread h4 hb' hbb honly hq hm' rfl hkpbytes
  exact ⟨kp, hkp, hkpbytes, removeOrChooseSubtree_collapse_inode h hp hfind hb hc hk hslot hread hmin h4
    hlast hqp hq hkp hslq, hinv, hdrops⟩

/-- The round in which the removal meets a leaf. -/
theorem removeLoop_leaf (h : s.Inv K path lost)
    (hjoin : s.tree.JoinsFit (ArtKey.getKeyView k))
    (hat : s.tree.At path (ArtKey.getKeyView k) sl slot depth rem)
    (hread : s.tree.graph.read slot = some p) (hp : s.tree.deref p = some (.inode n)) {ci i : Nat}
    (hpath : path p ++ [b] <+: ArtKey.getKeyView k) (hfind : n.findChild b = some (ci, i))
    (hb : n.child b = some c) (hc : s.tree.deref c = some (.leaf k' v)) :
    (∃ s', removeOrChooseSubtree p b k sl s = .ok (some none) s' ∧
      RemoveResult K lost s k (.ok true s')) ∨
    (removeOrChooseSubtree p b k sl s = .ok none s ∧ RemoveResult K lost s k (.ok false s)) := by
  have hwf : n.WF := h.tree.wf (Tree.deref_eq_some_iff.mp hp).1
  have hreadc : s.tree.graph.read (.child p b) = some c := by
    rw [Tree.graph_read_child hp, hb]
  by_cases hne : ArtKey.getKeyView k = k'
  swap
  · exact .inr ⟨removeOrChooseSubtree_mismatch h hp hfind hb hc hne sl,
      .absent (h.tree.unbound_of_leaf hreadc hpath hc hne)⟩
  left
  have hbind : s.tree.Binds (ArtKey.getKeyView k) v :=
    ⟨c.addr, hne ▸ (Tree.deref_eq_some_iff.mp hc).1⟩
  have hmin2 : 2 ≤ n.type.minSize := by
    cases htype : n.type with
    | leaf => exact absurd htype n.type_ne_leaf
    | _ => decide
  by_cases hmin : n.isMinSize
  · have hdeg := hwf.isMinSize_iff.mp hmin
    by_cases h4 : n.type = .i4
    · obtain ⟨b', q, hlast, hbb, hb', honly⟩ := hwf.lastChild hfind h4 (by rw [hdeg, h4]; rfl)
      have hreadq : s.tree.graph.read (.child p b') = some q := by
        rw [Tree.graph_read_child hp, hb']
      by_cases hqtype : q.type = .leaf
      · obtain ⟨k'', v'', hq, -⟩ := h.tree.leaf_of_tag hreadq hqtype
        obtain ⟨hinv, hdrops⟩ := h.collapsed hp hb hc hat.slotAt hread h4 hb' hbb honly hq
        exact ⟨_, removeOrChooseSubtree_collapse_leaf h hp hfind hb hc hne hat.slotAt hread hmin
          h4 hlast hq, .removed hbind hinv (hne ▸ hdrops)⟩
      · obtain ⟨m, hq, hmwf, -⟩ := h.tree.inode_of_tag hreadq hqtype
        have hfit := hjoin _ _ _ _ _ _ _ _ hp hb (hne ▸ hc) hb' hbb honly hq
        obtain ⟨kp, -, -, hr, hinv, hdrops⟩ := removeOrChooseSubtree_join h hat.slotAt hread hp hfind hb
          hc hne hmin h4 hlast hbb hb' honly hq hfit
        exact ⟨_, hr, .removed hbind hinv (hne ▸ hdrops)⟩
    · obtain ⟨n', hn', hrep, hpre, htype⟩ := hwf.shrink hfind hdeg h4
      have hdeg2 : 2 < degree n.child := by
        rw [hdeg]
        cases hty : n.type with
        | leaf => exact absurd hty n.type_ne_leaf
        | i4 => exact absurd hty h4
        | _ => decide
      obtain ⟨hinv, hdrops⟩ := h.shrank hp hb hc hat.slotAt hread hrep hpre h4 htype hdeg2
      exact ⟨_, removeOrChooseSubtree_shrink h hp hfind hb hc hne hat.slotAt hread hmin h4 hn'
        htype, .removed hbind hinv (hne ▸ hdrops)⟩
  · have hdeg : n.type.minSize < degree n.child :=
      Nat.lt_of_le_of_ne hwf.minSize_le fun heq => hmin (hwf.isMinSize_iff.mpr heq.symm)
    obtain ⟨n', hn', hrep, hpre, htype⟩ := hwf.remove hfind hdeg
    obtain ⟨hinv, hdrops⟩ := h.removedLeaf hp hb hc hrep hpre htype (by omega)
    exact ⟨_, removeOrChooseSubtree_remove h hp hfind hb hc hne hmin hn' htype sl,
      .removed hbind hinv (hne ▸ hdrops)⟩

/-- The loop of a removal ends, from any place on the way of its key that holds an inner node. -/
theorem removeLoop_spec (h : s.Inv K path lost) (hstays : s.tree.Stays path (ArtKey.getKeyView k))
    (hjoin : s.tree.JoinsFit (ArtKey.getKeyView k)) {fuel : Nat}
    (hat : s.tree.At path (ArtKey.getKeyView k) sl slot depth rem)
    (hread : s.tree.graph.read slot = some p) (htype : p.type ≠ .leaf)
    (hfuel : (ArtKey.getKeyView k).length < fuel + depth) :
    RemoveResult K lost s k (removeLoop k fuel sl rem s) := by
  induction fuel generalizing sl slot depth rem p with
  | zero =>
    have := hat.depth_le
    omega
  | succ fuel ih =>
    obtain ⟨n, hp, hwf, -⟩ := h.tree.inode_of_tag hread htype
    have hload := (h.tree.load_eq hat.slotAt).trans hread
    by_cases hlt : n.keyPrefix.getSharedLength (ArtKey.getU64 rem) < n.keyPrefix.length
    · rw [removeLoop_leaves hload hp hlt]
      exact .absent (h.tree.unbound_of_prefix hread hat.start hp
        (hat.not_path_isPrefix h.tree hread hp hstays hlt))
    · obtain ⟨hshared, rem1, b, rem2, hrem1, hb, hrem2, hpath, hbyte, hlen, hdrop⟩ :=
        hat.pass h.tree hread hp hstays hlt
      cases hfind : n.findChild b with
      | none =>
        have hr : removeOrChooseSubtree p b k sl s = .ok none s := by
          rw [removeOrChooseSubtree, DbM.bind_ok (readInode_ok hp)]
          simp only [hfind]
          rfl
        rw [removeLoop_pass hload hp hshared hrem1 hb hr]
        exact .absent (h.tree.unbound_of_gap hread hat.start hp hpath
          ((hwf.findChild_eq_none_iff b).mp hfind))
      | some r =>
        obtain ⟨ci, i⟩ := r
        obtain ⟨c, hc, -⟩ := hwf.findChild_eq_some hfind
        have hreadc : s.tree.graph.read (.child p b) = some c := by
          rw [Tree.graph_read_child hp, hc]
        by_cases hctype : c.type = .leaf
        · obtain ⟨k', v', hleaf, -⟩ := h.tree.leaf_of_tag hreadc hctype
          rcases removeLoop_leaf h hjoin hat hread hp hpath hfind hc hleaf with
            ⟨s', hr, hres⟩ | ⟨hr, hres⟩
          · rw [removeLoop_pass hload hp hshared hrem1 hb hr]
            exact hres
          · rw [removeLoop_pass hload hp hshared hrem1 hb hr]
            exact hres
        · have hr : removeOrChooseSubtree p b k sl s = .ok (some (some (.child p.addr i))) s := by
            rw [removeOrChooseSubtree, DbM.bind_ok (readInode_ok hp)]
            simp only [hfind]
            rw [DbM.bind_ok (readSlot_ok (h.load_child hp hfind hc)), if_pos hctype]
            rfl
          rw [removeLoop_pass hload hp hshared hrem1 hb hr]
          simp only
          rw [DbM.bind_lift hrem2]
          exact ih (Tree.At.child hp hfind hpath hlen hdrop) hreadc hctype (by omega)

theorem removeInternal_spec (h : s.Inv K path lost)
    (hstays : s.tree.Stays path (ArtKey.getKeyView k))
    (hjoin : s.tree.JoinsFit (ArtKey.getKeyView k)) :
    RemoveResult K lost s k (removeInternal k s) := by
  cases hroot : s.tree.root with
  | none =>
    rw [removeInternal, DbM.bind_get]
    simp only [hroot]
    refine .absent fun v hb => ?_
    obtain ⟨x, hx⟩ := Tree.binds_iff.mpr hb
    rw [h.tree.graph.node_eq_none hroot] at hx
    cases hx
  | some root =>
    have hread : s.tree.graph.read .root = some root := hroot
    by_cases htype : root.type = .leaf
    · obtain ⟨k', v', hp, -⟩ := h.tree.leaf_of_tag hread htype
      by_cases hne : ArtKey.getKeyView k = k'
      · subst hne
        rw [removeInternal_root h hroot hp]
        obtain ⟨hinv, hdrops⟩ := h.removedRoot hroot hp
        exact .removed ⟨root.addr, (Tree.deref_eq_some_iff.mp hp).1⟩ hinv hdrops
      · rw [removeInternal, DbM.bind_get]
        simp only [hroot]
        rw [if_pos htype, DbM.bind_ok (readKey_ok hp),
          if_neg (mt (ArtKey.cmp_eq_zero_iff _ _).mp hne)]
        exact .absent (h.tree.unbound_of_leaf hread List.nil_prefix hp hne)
    · rw [removeInternal, DbM.bind_get]
      simp only [hroot]
      rw [if_neg htype]
      refine removeLoop_spec h hstays hjoin (Tree.At.root s.tree path k) hread htype ?_
      rw [LawfulArtKey.size_eq]
      omega

end Db

end Unodb
