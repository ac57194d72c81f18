import Unodb.Olc.Insert

/-!
# A removal from `olc_db` that no other thread disturbs

The first attempt of the removal does what `remove_internal` of `db` does to the mirrored tree, or
leaves everything as it was if memory runs out.
-/

open Arrays

namespace Unodb

/-- The node that is left over, and is an inner node, when the leaf of `k` is removed from a node
    of two children. -/
def Tree.LeftOver (t : Tree) (k : List UInt8) (q : NodePtr) : Prop :=
  ∃ p n b c v b' m, t.deref p = some (.inode n) ∧ n.child b = some c ∧
    t.deref c = some (.leaf k v) ∧ n.child b' = some q ∧ b' ≠ b ∧
    (∀ x, (n.child x).isSome → x = b ∨ x = b') ∧ t.deref q = some (.inode m)

/-- Seen from the leaf of `k`, the node is an only sibling. -/
theorem Tree.Inv.leftOver_iff {K : Set (List UInt8)} {t : Tree} {path : NodePtr → List UInt8}
    {p c q : NodePtr} {n : INode NodePtr} {b : UInt8} {k v : List UInt8} (h : t.Inv K path)
    (hp : t.deref p = some (.inode n)) (hb : n.child b = some c)
    (hc : t.deref c = some (.leaf k v)) :
    t.LeftOver k q ↔ ∃ b' m, n.child b' = some q ∧ b' ≠ b ∧
      (∀ x, (n.child x).isSome → x = b ∨ x = b') ∧ t.deref q = some (.inode m) := by
  constructor
  · rintro ⟨p', n', b₁, c', v', b', m, hp', hb₁, hc', hb', hbb, honly, hq⟩
    -- There is one leaf with this key, and one place that points to it.
    have hcc := h.graph.leaf_unique (Tree.graph_node_leaf_iff.mpr hc)
      (Tree.graph_node_leaf_iff.mpr hc')
    subst hcc
    have hread : t.graph.read (.child p b) = some c := by rw [Tree.graph_read_child hp, hb]
    have hread' : t.graph.read (.child p' b₁) = some c := by rw [Tree.graph_read_child hp', hb₁]
    have hslot := h.graph.slot_unique hread hread'
    obtain ⟨rfl, rfl⟩ := Radix.Slot.child.inj hslot
    cases hp.symm.trans hp'
    exact ⟨b', m, hb', hbb, honly, hq⟩
  · rintro ⟨b', m, hb', hbb, honly, hq⟩
    exact ⟨p, n, b, c, v, b', m, hp, hb, hc, hb', hbb, honly, hq⟩

/-- Only a sibling that is an inner node is left over. -/
theorem Tree.Inv.leftOver_sibling {K : Set (List UInt8)} {t : Tree} {path : NodePtr → List UInt8}
    {p c q q' : NodePtr} {n : INode NodePtr} {b b' : UInt8} {k v : List UInt8} (h : t.Inv K path)
    (hp : t.deref p = some (.inode n)) (hb : n.child b = some c)
    (hc : t.deref c = some (.leaf k v)) (hb' : n.child b' = some q) (hbb : b' ≠ b)
    (honly : ∀ x, (n.child x).isSome → x = b ∨ x = b') :
    t.LeftOver k q' ↔ q' = q ∧ ∃ m, t.deref q = some (.inode m) := by
  rw [h.leftOver_iff hp hb hc]
  constructor
  · rintro ⟨x, m, hx, hxb, -, hq'⟩
    rcases honly x (by rw [hx]; rfl) with rfl | rfl
    · exact absurd rfl hxb
    · cases hb'.symm.trans hx
      exact ⟨rfl, m, hq'⟩
  · rintro ⟨rfl, m, hq⟩
    exact ⟨b', m, hb', hbb, honly, hq⟩

/-- Nothing is left over of a node with more than two children. -/
theorem Tree.Inv.not_leftOver {K : Set (List UInt8)} {t : Tree} {path : NodePtr → List UInt8}
    {p c q : NodePtr} {n : INode NodePtr} {b : UInt8} {k v : List UInt8} (h : t.Inv K path)
    (hp : t.deref p = some (.inode n)) (hb : n.child b = some c)
    (hc : t.deref c = some (.leaf k v)) (hdeg : 2 < degree n.child) : ¬ t.LeftOver k q := by
  rw [h.leftOver_iff hp hb hc]
  rintro ⟨b', m, -, -, honly, -⟩
  have hsub : (Finset.univ.filter fun x => (n.child x).isSome) ⊆ {b, b'} := by
    intro x hx
    simpa using honly x (Finset.mem_filter.mp hx).2
  exact absurd ((Finset.card_le_card hsub).trans Finset.card_le_two) (Nat.not_le_of_lt hdeg)

/-- Nothing is left over of a tree of one leaf. -/
theorem Tree.Inv.not_leftOver_root {K : Set (List UInt8)} {t : Tree}
    {path : NodePtr → List UInt8} {p q : NodePtr} {k v : List UInt8} (h : t.Inv K path)
    (hroot : t.root = some p) (hp : t.deref p = some (.leaf k v)) : ¬ t.LeftOver k q := by
  rintro ⟨p', n, b, c, v', b', m, hp', hb, hc, -⟩
  have hread : t.graph.read (.child p' b) = some c := by rw [Tree.graph_read_child hp', hb]
  rw [← h.graph.leaf_unique (Tree.graph_node_leaf_iff.mpr hp) (Tree.graph_node_leaf_iff.mpr hc)] at hread
  exact nomatch h.graph.slot_unique hread (show t.graph.read .root = some p from hroot)

namespace OlcDb

/-- The root pointer is cleared in both. -/
theorem Stores.clearedRoot {o : OlcDb sizes} {s : Db dbSizes} (h : o.Stores s) :
    Stores ({ o with mem.root := none } : OlcDb sizes)
      ({ s with tree.root := none } : Db dbSizes) where
  tree := by
    rw [← h.tree]
    rfl
  next := h.next
  nodeCounts := h.nodeCounts
  growing := h.growing
  shrinking := h.shrinking
  splits := h.splits
  accounted := ⟨h.accounted.fresh, h.accounted.counts, h.accounted.memory⟩
  fresh := h.fresh
  retired := h.retired

variable {κ : Type} [LawfulArtKey κ] {K : Set (List UInt8)} {path : NodePtr → List UInt8}
  {lost : NodeType → Nat} {o : OlcDb sizes} {s : Db dbSizes} {sl : Slot} {slot : Radix.Slot NodePtr UInt8}
  {p c q : NodePtr} {n n' m : INode NodePtr} {k : κ} {k' v v' : List UInt8} {depth : Nat} {rem : κ}
  {b b' : UInt8} {me ci i : Nat} {parentCs : CriticalSection} {version childVersion : Nat}
  {P : Choice → Prop} {Q : RemoveResult → OlcDb sizes → Prop} {E : Fault → OlcDb sizes → Prop}

/-- A leaf is reclaimed before or after its node is written, which makes no difference. -/
theorem ends_reclaim {α : Type} {first : Prop} [Decidable first] {w : OlcM sizes Unit}
    {f : Unit → OlcM sizes α} {x y : OlcDb sizes} {s s' : Db dbSizes} {body : Body}
    {Q : α → OlcDb sizes → Prop}
    (hw : w.Yields x (.ok ()) y)
    (hw' : w.Yields (x.nowRetired me c body) (.ok ()) (y.nowRetired me c body))
    (hx : x.Stores s) (hc : s.tree.deref c = some body) (hy : y.Stores s')
    (hc' : s'.tree.deref c = some body) (hf : (f ()).Ends P Q E (y.nowRetired me c body)) :
    (if first then onNextEpochDeallocate me c >>= fun _ => w >>= f
      else w >>= fun _ => onNextEpochDeallocate me c >>= f).Ends P Q E x := by
  split
  · exact .step (yields_onNextEpochDeallocate hx hc me) (.step hw' hf)
  · exact .step hw (.step (yields_onNextEpochDeallocate hy hc' me) hf)

theorem unlinkChild_type (n : INode NodePtr) (i : Nat) : (n.unlinkChild i).type = n.type := by
  obtain ⟨keyPrefix, count, layout⟩ := n
  cases layout <;> rfl

/-- `init` of a node that replaces one of minimum size. -/
theorem yields_initSmaller {newNode : NodePtr} (hnew : o.mem.deref newNode = some (.inode m))
    (hp : o.mem.deref p = some (.inode n)) (hn' : n.shrink ci = .ok n')
    (hpre : n'.keyPrefix = m.keyPrefix) :
    (initSmaller newNode p ci).Yields o (.ok ())
      ((o.written p.addr (n.unlinkChild ci)).written newNode.addr n') := by
  refine yields_tryAct_ok fun _ => ?_
  rw [Tree.readInode_ok hnew, Tree.readInode_ok hp]
  simp only [bind, Except.bind, hn', ← hpre]
  rfl

/-! ## 1. A leaf taken from an inner node -/

section Child

variable (hm : o.Mirrors s) (h : s.Inv K path lost) (hp : s.tree.deref p = some (.inode n))
  (hb : n.child b = some c) (hc : s.tree.deref c = some (.leaf k' v))
  (hparent : o.Valid parentCs) (hnode : o.lock (.node p.addr) = .free version)
  (hchild : o.lock (.node c.addr) = .free childVersion)
include hm h hp hb hc hparent hnode hchild

theorem removeChild_ends (hn' : n.remove ci = .ok n')
    (hrep : n'.Rep (Function.update n.child b none)) (hpre : n'.keyPrefix = n.keyPrefix)
    (htype : n'.type = n.type) (hdeg : 2 < degree n.child)
    (hQ : ∀ o', Carries K path lost o s o' (s.removedLeaf p n' c (.leaf k' v)) [] →
      Q .removed o') :
    (removeChild me p ci c parentCs ⟨.node p.addr, version⟩ ⟨.node c.addr, childVersion⟩).Ends P Q E
      o := by
  have hpc := Tree.addr_ne_of_leaf_inode hp hc
  have hsite : Site.node c.addr ≠ .node p.addr := fun heq => hpc (Site.node.inj heq).symm
  obtain ⟨hheap, -⟩ := Tree.deref_eq_some_iff.mp hp
  obtain ⟨hcheap, -⟩ := Tree.deref_eq_some_iff.mp hc
  rw [removeChild]
  refine .step (yields_check hparent) (.step (yields_writeGuard ?_ me) (.step (yields_writeGuard ?_ me)
    (.step (yields_unlockAndObsolete _ _) ?_)))
  · exact hnode
  · show (setLock _ _ _).lock _ = _
    rw [setLock_lock, if_neg hsite]
    exact hchild
  obtain ⟨hinv, -⟩ := h.removedLeaf hp hb hc hrep hpre htype hdeg
  have hwritten := hm.toStores.written hheap htype
  have hcwritten : ({ s with tree := s.tree.set p.addr (some (.inode n')) } : Db dbSizes).tree.deref c =
      some (.leaf k' v) := (Tree.deref_set_ne _ hpc.symm _).trans hc
  refine ends_reclaim (yields_updateInode (hm.deref hp) hn') (yields_updateInode (hm.deref hp) hn')
    (hm.toStores.withLock _) hc (hwritten.withLock _) hcwritten ?_
  refine .step (yields_unlock version me ?_) ?_
  · simp [hsite.symm]
  refine hQ _ ⟨?_, ⟨[.node p.addr], [c.addr], ?_⟩, path, hinv, fun _ _ => rfl⟩
  · have hstores := hwritten.nowRetired hcwritten me
    have hstate : s.removedLeaf p n' c (.leaf k' v) = { s.removedLeaf p n' c (.leaf k' v) with
        tree := (s.tree.set p.addr (some (.inode n'))).set c.addr none } := by
      rw [Tree.set_set_comm _ hpc]
      rfl
    rw [hstate]
    exact { hstores with }
  · constructor
    · exact Nat.le_refl _
    · simp [hnode]
    · simp [hchild, hpc.symm]
    · simp +contextual
    · intro a ha
      rcases (by simpa using ha : a = p.addr ∨ a = c.addr) with rfl | rfl
      · rw [hm.heap_eq hheap]
        simp
      · rw [hm.heap_eq hcheap]
        simp
    · intro _
      rfl
    · simp
    · intro a ha hnot _ _
      have hap : a ≠ p.addr := by simpa using hnot
      show (Tree.set _ _ _).heap a = _
      simp [Tree.set_heap, hap]
    · simp
    · simp
    · exact (Tree.Ages.refl _).write (hm.heap_eq hheap) (.of_keyPrefix_eq htype hpre)

/-! ## 2. A node replaced by a smaller one or taken away -/

variable (hsl : s.tree.SlotAt sl slot) (hread : s.tree.graph.read slot = some p)
  (hlock : parentCs.lock = sl.site)
include hsl hread hlock

omit hm hb hc hparent hnode hchild hlock in
/-- The lock of a node is not the one that protects the pointer to it. -/
theorem site_ne_node : sl.site ≠ .node p.addr := by
  intro heq
  have hne := h.tree.ne_slot hsl hread hp
  cases sl with
  | root => cases heq
  | child a i => exact hne i (by rw [Site.node.inj heq])

omit hm h hp hb hparent hnode hchild hread hlock in
/-- A leaf holds no pointer. -/
theorem site_ne_leaf : sl.site ≠ .node c.addr := by
  intro heq
  have hne := hsl.ne_leaf hc
  cases sl with
  | root => cases heq
  | child a i => exact hne i (by rw [Site.node.inj heq])

theorem shrinkInode_ends (h4 : n.type ≠ .i4) (hn' : n.shrink ci = .ok n')
    (hrep : n'.Rep (Function.update n.child b none)) (hpre : n'.keyPrefix = n.keyPrefix)
    (htype : n'.type = n.type.smaller) (hdeg : 2 < degree n.child)
    (hQ : ∀ o', Carries K path lost o s o' (s.shrank sl p n n' c (.leaf k' v)) [] → Q .removed o')
    (hE : ∀ c, P c → c.badAlloc = true → E .badAlloc o) :
    (shrinkInode me p ci c sl parentCs ⟨.node p.addr, version⟩ ⟨.node c.addr, childVersion⟩).Ends P
      Q E o := by
  -- The leaf, the node and the node's place have different locks.
  have hpc := Tree.addr_ne_of_leaf_inode hp hc
  have hsp := site_ne_node h hp hsl hread
  have hsc := site_ne_leaf hc hsl
  obtain ⟨hheap, htag⟩ := Tree.deref_eq_some_iff.mp hp
  obtain ⟨hcheap, -⟩ := Tree.deref_eq_some_iff.mp hc
  have hslot := slotIn_of_slotAt hsl
  have hsmaller : p.type.smaller ≠ .leaf := by
    cases p.type <;> simp [NodeType.smaller]
  have htype' : n'.type = (INode.blank p.type.smaller n.keyPrefix).type := by
    rw [blank_type hsmaller, htype]
    exact congrArg NodeType.smaller htag
  rw [shrinkInode]
  refine .step (yields_read (hm.deref hp) ?_ _) ?_
  · simp only [List.mem_cons, List.not_mem_nil, or_false, forall_eq_or_imp, forall_eq]
    exact ⟨hparent, hnode⟩
  refine ends_makeDbInode hE ?_
  -- All three locks are free at the versions read, so that the upgrades succeed.
  refine .step (yields_writeGuard ?_ me) (.step (yields_writeGuard ?_ me)
    (.step (yields_writeGuard ?_ me) (.step (yields_unlockAndObsolete _ _)
    (.step (yields_unlockAndObsolete _ _) ?_))))
  · exact hparent
  · show (setLock _ _ _).lock _ = _
    rw [setLock_lock, hlock, if_neg hsp.symm]
    exact hnode
  · simp [Valid, hlock, hsc.symm, hpc.symm, hchild]
  -- The heap of `db` follows: the blank node, the emptied one, the filled one.
  have hboth := hm.toStores.allocated (.inode (INode.blank p.type.smaller n.keyPrefix))
  have hpz : p.addr ≠ s.next := Tree.heap_ne_of_deref hp h.heap_next
  have hcz : c.addr ≠ s.next := Tree.heap_ne_of_deref hc h.heap_next
  have hpold := (Db.allocated_deref hpz (.inode (INode.blank p.type.smaller n.keyPrefix))).trans hp
  have hcold := (Db.allocated_deref hcz (.inode (INode.blank p.type.smaller n.keyPrefix))).trans hc
  have hblank := Tree.deref_set_self s.tree o.next (.inode (INode.blank p.type.smaller n.keyPrefix))
  have hnewBlank := Tree.deref_set_self o.mem o.next (.inode (INode.blank p.type.smaller n.keyPrefix))
  have hold := hboth.written (Tree.deref_eq_some_iff.mp hpold).1 (unlinkChild_type n ci)
  have hnew := hold.written (a := o.next) (n := INode.blank p.type.smaller n.keyPrefix)
    (by
      show ((Tree.set _ _ _).set _ _).heap _ = _
      rw [hm.next, Tree.set_heap, if_neg hpz.symm, Tree.set_heap, if_pos rfl]) htype'
  have hcnew : ({ s with tree := ((s.tree.set s.next
      (some (.inode (INode.blank p.type.smaller n.keyPrefix)))).set p.addr
      (some (.inode (n.unlinkChild ci)))).set o.next (some (.inode n')) } : Db dbSizes).tree.deref c =
      some (.leaf k' v) := by
    rw [hm.next, Tree.deref_set_ne _ hcz, Tree.deref_set_ne _ hpc.symm]
    exact hcold
  refine ends_reclaim (yields_initSmaller hnewBlank (hboth.deref hpold) hn' hpre)
    (yields_initSmaller hnewBlank (hboth.deref hpold) hn' hpre)
    (hboth.withLock _) hcold (hnew.withLock _) hcnew ?_
  have hreclaimed := hnew.nowRetired hcnew me
  have hpreclaimed : (Db.freed ({ s with tree := ((s.tree.set s.next
      (some (.inode (INode.blank p.type.smaller n.keyPrefix)))).set p.addr
      (some (.inode (n.unlinkChild ci)))).set o.next (some (.inode n')) } : Db dbSizes) c
      (.leaf k' v)).tree.deref p = some (.inode (n.unlinkChild ci)) := by
    show ((((Tree.set _ _ _).set _ _).set _ _).set _ _).deref p = _
    rw [Tree.deref_set_ne _ hpc, hm.next, Tree.deref_set_ne _ hpz, Tree.deref_eq_some_iff,
      Tree.set_heap, if_pos rfl]
    exact ⟨rfl, (unlinkChild_type n ci).trans htag⟩
  have hretired := hreclaimed.nowRetired hpreclaimed me
  refine .step (yields_onNextEpochDeallocate (hreclaimed.withLock _) hpreclaimed me)
    (.step (yields_storeSlot _ _ _) ?_)
  refine .step (yields_unlock parentCs.version me ?_) (.step (yields_act _ _) ?_)
  · simp [hlock, hsp, hsc]
  obtain ⟨hinv, -⟩ := h.shrank hp hb hc hsl hread hrep hpre h4 htype hdeg
  refine hQ _ ⟨?_, ⟨[sl.site], [p.addr, c.addr], ?_⟩, _, hinv, ?_⟩
  · have hstores := (hretired.stored
      (((((hslot.set _ _).set _ _).set _ _).set_none hsc).set_none hsp)
      ⟨o.next, (INode.blank p.type.smaller n.keyPrefix).type⟩).shrunk p.type
    have hstate : s.shrank sl p n n' c (.leaf k' v) = {
        tree := (((((s.tree.set s.next (some (.inode
          (INode.blank p.type.smaller n.keyPrefix)))).set p.addr
          (some (.inode (n.unlinkChild ci)))).set o.next (some (.inode n'))).set c.addr none).set
          p.addr none).store sl ⟨o.next, n'.type⟩
        next := s.next + 1
        stats := (Accounted.uncounted dbSizes (Accounted.uncounted dbSizes (Accounted.counted
          dbSizes s.stats (.inode (INode.blank p.type.smaller n.keyPrefix))) (.leaf k' v))
          (.inode (n.unlinkChild ci))).shrunk p.type
        memory := s.memory } := by
      rw [hm.next, Tree.set_set_comm _ hpz.symm, Tree.set_set, Tree.set_set_comm _ hpz,
        Tree.set_set_comm _ hpc, Tree.set_set, h.shrank_tree hp hc hsl hread, Db.shrank,
        Accounted.counted_inode dbSizes _ htype',
        Accounted.uncounted_inode dbSizes _ (unlinkChild_type n ci),
        show p.type = n.type from htag.symm]
    rw [hstate]
    rw [← htype'] at hstores ⊢
    exact { hstores with }
  · constructor
    · exact Nat.le_succ _
    · have hsl : o.lock sl.site = .free parentCs.version := hlock ▸ hparent
      simp [hlock, hsl]
    · simp [hnode, hchild, hlock, hsp.symm, hsc.symm, hpc]
    · simp +contextual [hlock]
    · intro a ha
      rcases (by simpa using ha : .node a = sl.site ∨ a = p.addr ∨ a = c.addr) with ha | ha | ha
      · exact hm.slot_known hslot ha
      · rw [ha, hm.heap_eq hheap]
        simp
      · rw [ha, hm.heap_eq hcheap]
        simp
    · intro hroot
      exact store_root (fun heq => hroot (heq ▸ List.mem_cons_self)) _
    · intro hroot q hq
      obtain rfl := hm.root_eq hsl hread (by simpa using hroot) hq
      simp
    · intro a ha hnot hkilled _
      simp only [List.mem_cons, List.not_mem_nil, or_false, not_or] at hnot hkilled
      show (((Tree.set _ _ _).set _ _).store sl _).heap a = _
      rw [store_heap hnot]
      simp [Tree.set_heap, Nat.ne_of_lt ha, hkilled.1]
    · simp
    · simp
    · exact ((((Tree.Ages.refl _).add (hm.unused 0) _).write (hm.heap_eq hheap)
        (.of_keyPrefix_eq (unlinkChild_type n ci) rfl)).add (hm.unused 0) _).store _ _
  · intro q hq
    rw [Function.update_of_ne]
    rintro rfl
    exact Nat.lt_irrefl _ hq

omit hb in
/-- The part of the collapse of a two-child node that both kinds of other children share: `o₁` is
    the state in which the other child has its new prefix. -/
theorem collapse_ends {o₁ : OlcDb sizes} {t₁ t₂ : Tree} {spared : List Nat} (h4 : n.type = .i4)
    (hleave : ∀ lock, (leaveLastChild p ci : OlcM sizes _).Yields { o with lock } (.ok q)
      { o₁ with lock })
    (h₁ : o₁.Stores ({ s with tree := t₁ } : Db dbSizes)) (hc₁ : t₁.deref c = some (.leaf k' v))
    (hp₁ : t₁.deref p = some (.inode n)) (hslot₁ : SlotIn t₁ sl)
    (ht₂ : ((t₁.set c.addr none).store sl q).set p.addr none = t₂)
    (hroot₁ : o₁.mem.root = o.mem.root) (hnext₁ : o₁.next = o.next)
    (hretired₁ : o₁.retired = o.retired)
    (hnode₁ : ∀ a ∉ spared, o₁.mem.heap a = o.mem.heap a)
    (hspared : ∀ a ∈ spared, Site.node a ≠ sl.site ∧ a ≠ p.addr ∧ a ≠ c.addr ∧
      ∃ m m', o.mem.heap a = some (.inode m) ∧ o₁.mem.heap a = some (.inode m') ∧
        m' = { m with keyPrefix := m'.keyPrefix } ∧ m.keyPrefix.length < m'.keyPrefix.length)
    (hinv : (s.collapsed t₂ n (.leaf k' v)).Inv K path lost)
    (hQ : ∀ o', Carries K path lost o s o' (s.collapsed t₂ n (.leaf k' v)) spared →
      Q .removed o') :
    (collapseInode me p ci c sl parentCs ⟨.node p.addr, version⟩ ⟨.node c.addr, childVersion⟩).Ends
      P Q E o := by
  -- The leaf, the node and the node's place have different locks.
  have hpc := Tree.addr_ne_of_leaf_inode hp hc
  have hsp := site_ne_node h hp hsl hread
  have hsc := site_ne_leaf hc hsl
  have hslot := slotIn_of_slotAt hsl
  obtain ⟨hheap, htag⟩ := Tree.deref_eq_some_iff.mp hp
  obtain ⟨hcheap, -⟩ := Tree.deref_eq_some_iff.mp hc
  rw [collapseInode]
  refine .step (yields_writeGuard ?_ me) (.step (yields_writeGuard ?_ me)
    (.step (yields_writeGuard ?_ me) (.step (yields_unlockAndObsolete _ _)
    (.step (yields_unlockAndObsolete _ _) (.step (hleave _) ?_)))))
  · exact hparent
  · show (setLock _ _ _).lock _ = _
    rw [setLock_lock, hlock, if_neg hsp.symm]
    exact hnode
  · simp [Valid, hlock, hsc.symm, hpc.symm, hchild]
  -- The same steps in `db`: the leaf is freed, the child that is left over stored, the node freed.
  have hreclaimed := h₁.nowRetired hc₁ me
  have hstored := hreclaimed.stored (hslot₁.set_none hsc) q
  have hp₂ : ((t₁.set c.addr none).store sl q).deref p = some (.inode n) := by
    rw [Tree.deref_eq_some_iff, store_heap hsp.symm, Tree.set_heap, if_neg hpc]
    exact Tree.deref_eq_some_iff.mp hp₁
  have hretired := hstored.nowRetired hp₂ me
  refine .step (yields_onNextEpochDeallocate (h₁.withLock _) hc₁ me) (.step (yields_storeSlot _ _ _)
    (.step (yields_onNextEpochDeallocate (hstored.withLock _) hp₂ me) ?_))
  refine .step (yields_unlock parentCs.version me ?_) (.step (yields_act _ _) ?_)
  · simp [hlock, hsp, hsc]
  refine hQ _ ⟨?_, ⟨[sl.site], [p.addr, c.addr], ?_⟩, path, hinv, fun _ _ => rfl⟩
  -- The states agree.
  · have hstores := hretired.shrunk p.type
    have hstate : s.collapsed t₂ n (.leaf k' v) = {
        tree := ((t₁.set c.addr none).store sl q).set p.addr none
        next := s.next
        stats := (Accounted.uncounted dbSizes (Accounted.uncounted dbSizes s.stats (.leaf k' v))
          (.inode n)).shrunk p.type
        memory := s.memory } := by
      rw [ht₂, Db.collapsed, ← h4, show p.type = n.type from htag.symm]
    rw [hstate]
    exact { hstores with }
  -- What other threads may notice.
  · constructor
    · exact Nat.le_of_eq hnext₁.symm
    · have hsl : o.lock sl.site = .free parentCs.version := hlock ▸ hparent
      simp [hlock, hsl]
    · simp [hnode, hchild, hlock, hsp.symm, hsc.symm, hpc]
    · simp +contextual [hlock]
    · intro a ha
      rcases (by simpa using ha : .node a = sl.site ∨ a = p.addr ∨ a = c.addr) with ha | ha | ha
      · exact hm.slot_known hslot ha
      · rw [ha, hm.heap_eq hheap]
        simp
      · rw [ha, hm.heap_eq hcheap]
        simp
    · intro hroot
      exact (store_root (fun heq => hroot (heq ▸ List.mem_cons_self)) _).trans hroot₁
    · intro hroot q hq
      obtain rfl := hm.root_eq hsl hread (by simpa using hroot) hq
      simp
    · intro a ha hnot hkilled hsp'
      simp only [List.mem_cons, List.not_mem_nil, or_false] at hnot
      exact (store_heap hnot _).trans (hnode₁ a hsp')
    · intro a ha
      obtain ⟨hsite, hap, hac, m, m', hm₀, hm', hrest⟩ := hspared a ha
      refine ⟨by simpa using hsite, by simp [hap, hac], m, m', hm₀, ?_, hrest⟩
      exact (store_heap hsite _).trans hm'
    · simp [hretired₁]
    · have hages : o.mem.Ages spared o₁.mem := by
        intro a body ha
        by_cases hsp' : a ∈ spared
        · obtain ⟨-, -, -, m, m', hm₀, hm', hrest, -⟩ := hspared a hsp'
          obtain rfl := Option.some_inj.mp (hm₀.symm.trans ha)
          exact ⟨_, hm', by rw [hrest]; rfl, .inl hsp'⟩
        · exact ⟨body, (hnode₁ a hsp').trans ha, .refl body⟩
      exact hages.store _ _

variable (h4 : n.type = .i4) (hlast : n.lastChild ci = .ok (b', q)) (hb' : n.child b' = some q)
  (hbb : b' ≠ b) (honly : ∀ x, (n.child x).isSome → x = b ∨ x = b')
include h4 hlast hb' hbb honly

/-- The other child is a leaf. -/
theorem collapseLeaf_ends {k'' : List UInt8} (hq : s.tree.deref q = some (.leaf k'' v'))
    (hQ : ∀ o', Carries K path lost o s o'
      (s.collapsed (s.tree.collapse sl p c.addr q) n (.leaf k' v)) [] → Q .removed o') :
    (collapseInode me p ci c sl parentCs ⟨.node p.addr, version⟩ ⟨.node c.addr, childVersion⟩).Ends
      P Q E o := by
  have hqtype : q.type = .leaf := (Tree.deref_eq_some_iff.mp hq).2.symm
  obtain ⟨hinv, -⟩ := h.collapsed hp hb hc hsl hread h4 hb' hbb honly hq
  refine collapse_ends (q := q) hm h hp hc hparent hnode hchild hsl hread hlock h4 (fun lock => ?_)
    hm.toStores hc hp (slotIn_of_slotAt hsl) (Db.collapsed_tree hp hc hsl q) rfl rfl rfl
    (fun _ _ => rfl) (fun a ha => absurd ha List.not_mem_nil)
    hinv hQ
  refine yields_tryAct_ok fun _ => ?_
  rw [Tree.readInode_ok (hm.deref hp)]
  simp only [bind, Except.bind, hlast, if_neg (not_not.mpr hqtype)]
  rfl

/-- The other child is an inner node. -/
theorem collapseInner_ends {keyPrefix : KeyPrefix} (hq : s.tree.deref q = some (.inode m))
    (hpre : m.keyPrefix.prepend n.keyPrefix b' = .ok keyPrefix)
    (hbytes : keyPrefix.bytes = n.keyPrefix.bytes ++ b' :: m.keyPrefix.bytes)
    (hQ : ∀ o', Carries K path lost o s o'
      (s.collapsed (s.tree.collapseInode sl p c.addr q { m with keyPrefix }) n (.leaf k' v))
      [q.addr] → Q .removed o') :
    (collapseInode me p ci c sl parentCs ⟨.node p.addr, version⟩ ⟨.node c.addr, childVersion⟩).Ends
      P Q E o := by
  have hreadq : s.tree.graph.read (.child p b') = some q := by
    rw [Tree.graph_read_child hp, hb']
  obtain ⟨hqheap, hqtag⟩ := Tree.deref_eq_some_iff.mp hq
  have hqtype : q.type ≠ .leaf := hqtag ▸ m.type_ne_leaf
  have hqp := h.tree.addr_ne_child hp hreadq hq
  have hqc := Tree.addr_ne_of_leaf_inode hq hc
  have hslq := h.tree.ne_slot_child hsl hread hreadq hq
  have hmwf : m.WF := h.tree.wf hqheap
  have hm' : INode.Rep { m with keyPrefix } m.child :=
    ⟨hmwf.layout, hmwf.count, hmwf.minSize_le, hmwf.le_capacity⟩
  obtain ⟨hinv, -⟩ := h.collapsedInode hp hb hc hsl hread h4 hb' hbb honly hq hm' rfl hbytes
  have hwritten := hm.toStores.written hqheap (show INode.type { m with keyPrefix } = m.type from rfl)
  refine collapse_ends (q := q) hm h hp hc hparent hnode hchild hsl hread hlock h4 (fun lock => ?_)
    hwritten
    ((Tree.deref_set_ne _ hqc.symm _).trans hc) ((Tree.deref_set_ne _ hqp.symm _).trans hp)
    ((slotIn_of_slotAt hsl).set _ _) ?_ rfl rfl rfl (fun a ha => ?_) (fun a ha => ?_) hinv hQ
  · refine yields_tryAct_ok fun _ => ?_
    rw [Tree.readInode_ok (hm.deref hp)]
    simp only [bind, Except.bind, hlast, if_pos hqtype]
    rw [Tree.readInode_ok (hm.deref hq)]
    simp only [hpre]
    rfl
  · rw [Tree.set_set_comm _ hqc, Tree.store_set_comm _ hslq, Tree.set_set_comm _ hqp,
      Db.collapsed_tree hp hc hsl q, Tree.collapseInode]
  · show (Tree.set _ _ _).heap a = _
    rw [Tree.set_heap, if_neg (by simpa using ha)]
  · have haq : a = q.addr := by simpa using ha
    subst haq
    refine ⟨fun heq => ?_, hqp, hqc, m, { m with keyPrefix }, hm.heap_eq hqheap, ?_, rfl, ?_⟩
    · cases sl with
      | root => cases heq
      | child x j => exact hslq j (by rw [Site.node.inj heq])
    · show (Tree.set _ _ _).heap _ = _
      rw [Tree.set_heap, if_pos rfl]
    · have hlen := congrArg List.length hbytes
      simp only [KeyPrefix.bytes_length, List.length_append, List.length_cons] at hlen
      show m.keyPrefix.length < keyPrefix.length
      omega

end Child

/-- The other child is an inner node with too long a prefix. -/
theorem collapseStuck_ends (hm : o.Mirrors s) (h : s.Inv K path lost)
    (hp : s.tree.deref p = some (.inode n)) (hc : s.tree.deref c = some (.leaf k' v))
    (hparent : o.Valid parentCs) (hnode : o.lock (.node p.addr) = .free version)
    (hchild : o.lock (.node c.addr) = .free childVersion) (hsl : s.tree.SlotAt sl slot)
    (hread : s.tree.graph.read slot = some p) (hlock : parentCs.lock = sl.site)
    (hlast : n.lastChild ci = .ok (b', q)) (hq : s.tree.deref q = some (.inode m)) {e : Fault}
    (hfail : m.keyPrefix.prepend n.keyPrefix b' = .error e) (hE : ∀ o', E e o') :
    (collapseInode me p ci c sl parentCs ⟨.node p.addr, version⟩ ⟨.node c.addr, childVersion⟩).Ends
      P Q E o := by
  have hpc := Tree.addr_ne_of_leaf_inode hp hc
  have hsp := site_ne_node h hp hsl hread
  have hsc := site_ne_leaf hc hsl
  have hqtype : q.type ≠ .leaf := (Tree.deref_eq_some_iff.mp hq).2 ▸ m.type_ne_leaf
  have hleave : ∀ lock, (leaveLastChild p ci : OlcM sizes _).Yields { o with lock } (.error e)
      { o with lock } := by
    intro lock
    refine yields_tryAct_error fun _ => ?_
    rw [Tree.readInode_ok (hm.deref hp)]
    simp only [bind, Except.bind, hlast, if_pos hqtype]
    rw [Tree.readInode_ok (hm.deref hq)]
    simp only [hfail]
  rw [collapseInode]
  refine .step (yields_writeGuard ?_ me) (.step (yields_writeGuard ?_ me)
    (.step (yields_writeGuard ?_ me) (.step (yields_unlockAndObsolete _ _)
    (.step (yields_unlockAndObsolete _ _) (.fail (hleave _) (hE _))))))
  · exact hparent
  · show (setLock _ _ _).lock _ = _
    rw [setLock_lock, hlock, if_neg hsp.symm]
    exact hnode
  · simp [Valid, hlock, hsc.symm, hpc.symm, hchild]

/-! ## 3. The operation -/

/-- What a removal of `k` may come to where it meets a leaf; `x` is what `db` does there. -/
def RoundOk (K : Set (List UInt8)) (path : NodePtr → List UInt8) (lost : NodeType → Nat)
    (o : OlcDb sizes) (s : Db dbSizes) (x : EStateM.Result Fault (Db dbSizes)
    (Option (Option Slot))) (k : List UInt8)
    (r : RemoveResult) (o' : OlcDb sizes) : Prop :=
  (r = .notFound ∧ x = .ok none s ∧ o' = o) ∨
    (r = .removed ∧ ∃ s' spared, x = .ok (some none) s' ∧ Carries K path lost o s o' s' spared ∧
      ∀ a, a ∈ spared ↔ ∃ q : NodePtr, q.addr = a ∧ s.tree.LeftOver k q)

/-- How a removal may end: the nodes whose prefix changes behind their locks are those left over. -/
def RemoveOk (K : Set (List UInt8)) (path : NodePtr → List UInt8) (lost : NodeType → Nat)
    (o : OlcDb sizes) (s : Db dbSizes) (x : EStateM.Result Fault (Db dbSizes) Bool) (k : List UInt8)
    (r : Attempt)
    (o' : OlcDb sizes) : Prop :=
  ∃ spared, UpdateOk K path lost o s x spared r o' ∧
    (r = .done true → ∀ a, a ∈ spared ↔ ∃ q : NodePtr, q.addr = a ∧ s.tree.LeftOver k q)

/-- How a removal may end with an exception: for lack of memory, or because `x` fails an assertion. -/
def RemoveFails {α : Type} (P : Choice → Prop) (o : OlcDb sizes) (x : EStateM.Result Fault (Db dbSizes) α)
    (e : Fault) (o' : OlcDb sizes) : Prop :=
  (o' = o ∧ e = .badAlloc ∧ ∃ c, P c ∧ c.badAlloc = true) ∨
    (e = .assertion ∧ ∃ s', x = .error .assertion s')

section Round

variable (hm : o.Mirrors s) (h : s.Inv K path lost) (hp : s.tree.deref p = some (.inode n))
  (hb : n.child b = some c) (hfind : n.findChild b = some (ci, i))
  (hc : s.tree.deref c = some (.leaf k' v)) (hparent : o.Valid parentCs)
  (hnode : o.lock (.node p.addr) = .free version)
  (hchild : o.lock (.node c.addr) = .free childVersion)
  (hsl : s.tree.SlotAt sl slot) (hread : s.tree.graph.read slot = some p)
  (hlock : parentCs.lock = sl.site) (hk : ArtKey.getKeyView k = k')
include hm h hp hb hfind hc hparent hnode hchild hsl hread hlock hk

/-- The leaf of the key is taken from its node. -/
theorem removeLeaf_ends :
    (if n.isMinSize then
      if p.type = .i4 then
        collapseInode me p ci c sl parentCs ⟨.node p.addr, version⟩ ⟨.node c.addr, childVersion⟩
      else shrinkInode me p ci c sl parentCs ⟨.node p.addr, version⟩ ⟨.node c.addr, childVersion⟩
    else removeChild me p ci c parentCs ⟨.node p.addr, version⟩ ⟨.node c.addr, childVersion⟩).Ends P
      (RoundOk K path lost o s (Db.removeOrChooseSubtree p b k sl s) (ArtKey.getKeyView k))
      (RemoveFails P o (Db.removeOrChooseSubtree p b k sl s)) o := by
  have htag : n.type = p.type := (Tree.deref_eq_some_iff.mp hp).2
  have hwf : n.WF := h.tree.wf (Tree.deref_eq_some_iff.mp hp).1
  have hnone : 2 < degree n.child → ∀ a, a ∈ ([] : List Nat) ↔
      ∃ q : NodePtr, q.addr = a ∧ s.tree.LeftOver (ArtKey.getKeyView k) q := fun hdeg a =>
    iff_of_false List.not_mem_nil fun ⟨_, _, hleft⟩ =>
      h.tree.not_leftOver hp hb (hk ▸ hc) hdeg hleft
  by_cases hmin : n.isMinSize
  · have hdeg := hwf.isMinSize_iff.mp hmin
    rw [if_pos hmin]
    by_cases h4 : n.type = .i4
    · obtain ⟨b', q, hlast, hbb, hb', honly⟩ := hwf.lastChild hfind h4 (by rw [hdeg, h4]; rfl)
      have hreadq : s.tree.graph.read (.child p b') = some q := by
        rw [Tree.graph_read_child hp, hb']
      rw [if_pos (htag ▸ h4)]
      by_cases hqtype : q.type = .leaf
      · obtain ⟨k'', v'', hq, -⟩ := h.tree.leaf_of_tag hreadq hqtype
        refine collapseLeaf_ends hm h hp hb hc hparent hnode hchild hsl hread hlock h4 hlast hb' hbb
          honly hq fun o' hcarries => .inr ⟨rfl, _, _, ?_, hcarries, fun a => ?_⟩
        · exact Db.removeOrChooseSubtree_collapse_leaf h hp hfind hb hc hk hsl hread hmin h4 hlast hq
        · simp [h.tree.leftOver_sibling hp hb (hk ▸ hc) hb' hbb honly, hq]
      · obtain ⟨m, hq, hmwf, -⟩ := h.tree.inode_of_tag hreadq hqtype
        by_cases hfit : m.keyPrefix.length + n.keyPrefix.length < keyPrefixCapacity
        swap
        · have hfail : m.keyPrefix.prepend n.keyPrefix b' = .error .assertion := by
            rw [KeyPrefix.prepend, dif_neg hfit]
          exact collapseStuck_ends hm h hp hc hparent hnode hchild hsl hread hlock hlast hq hfail
            fun _ => (.inr ⟨rfl, s, Db.removeOrChooseSubtree_stuck h hp hb (hk ▸ hc) hb' hbb honly hq hfit⟩)
        obtain ⟨kp, hpre, hbytes, hr, -, -⟩ := Db.removeOrChooseSubtree_join h hsl hread hp hfind hb
          hc hk hmin h4 hlast hbb hb' honly hq hfit
        refine collapseInner_ends hm h hp hb hc hparent hnode hchild hsl hread hlock h4 hlast hb' hbb
          honly hq hpre hbytes fun o' hcarries => .inr ⟨rfl, _, _, hr, hcarries, fun a => ?_⟩
        simp [h.tree.leftOver_sibling hp hb (hk ▸ hc) hb' hbb honly, hq, eq_comm]
    · obtain ⟨n', hn', hrep, hpre, htype⟩ := hwf.shrink hfind hdeg h4
      have hdeg2 : 2 < degree n.child := by
        rw [hdeg]
        cases hty : n.type with
        | leaf => exact absurd hty n.type_ne_leaf
        | i4 => exact absurd hty h4
        | _ => decide
      rw [if_neg (htag ▸ h4)]
      refine shrinkInode_ends hm h hp hb hc hparent hnode hchild hsl hread hlock h4 hn' hrep hpre htype
        hdeg2 (fun o' hcarries => .inr ⟨rfl, _, _, ?_, hcarries, hnone hdeg2⟩) fun d hd hbad => ?_
      · exact Db.removeOrChooseSubtree_shrink h hp hfind hb hc hk hsl hread hmin h4 hn' htype
      · exact .inl ⟨rfl, rfl, d, hd, hbad⟩
  · have hmin2 : 2 ≤ n.type.minSize := by
      cases htype : n.type with
      | leaf => exact absurd htype n.type_ne_leaf
      | _ => decide
    have hdeg : n.type.minSize < degree n.child :=
      Nat.lt_of_le_of_ne hwf.minSize_le fun heq => hmin (hwf.isMinSize_iff.mpr heq.symm)
    have hdeg2 : 2 < degree n.child := Nat.lt_of_le_of_lt hmin2 hdeg
    obtain ⟨n', hn', hrep, hpre, htype⟩ := hwf.remove hfind hdeg
    rw [if_neg hmin]
    refine removeChild_ends hm h hp hb hc hparent hnode hchild hn' hrep hpre htype hdeg2
      fun o' hcarries => .inr ⟨rfl, _, _, ?_, hcarries, hnone hdeg2⟩
    exact Db.removeOrChooseSubtree_remove h hp hfind hb hc hk hmin hn' htype sl

omit hk in
/-- The child on the way of the key is a leaf. -/
theorem removeOrChooseSubtree_ends :
    (removeOrChooseSubtree me p b k parentCs ⟨.node p.addr, version⟩ sl).Ends P
      (RoundOk K path lost o s (Db.removeOrChooseSubtree p b k sl s) (ArtKey.getKeyView k))
      (RemoveFails P o (Db.removeOrChooseSubtree p b k sl s)) o := by
  have hvalid : o.Valid ⟨.node p.addr, version⟩ := hnode
  have hchildValid : o.Valid ⟨.node c.addr, childVersion⟩ := hchild
  have hctype : c.type = .leaf := (Tree.deref_eq_some_iff.mp hc).2.symm
  have hslot : n.slot i = some c := by
    obtain ⟨q, hq, hslot, -⟩ := (h.tree.wf (Tree.deref_eq_some_iff.mp hp).1).findChild_eq_some hfind
    rw [hslot, ← hq, hb]
  rw [removeOrChooseSubtree]
  refine .step (yields_reading hm.quiet hvalid hp _) ?_
  rw [hfind]
  refine .step (yields_loadChild hm.quiet hvalid hp i) ?_
  rw [hslot]
  refine .step (yields_check hvalid) (.step (Prog.Yields.lift (.ok c) o) ?_)
  refine .step (yields_tryReadLock hchild) ?_
  simp only
  rw [if_neg (not_not.mpr hctype)]
  refine .step (yields_readKey hm.quiet hc) ?_
  by_cases hk : ArtKey.getKeyView k = k'
  · rw [if_neg (not_not.mpr ((ArtKey.cmp_eq_zero_iff _ _).mpr hk))]
    refine .step (yields_reading hm.quiet hvalid hp _) ?_
    exact removeLeaf_ends hm h hp hb hfind hc hparent hnode hchild hsl hread hlock hk
  · rw [if_pos (mt (ArtKey.cmp_eq_zero_iff _ _).mp hk)]
    refine .step (yields_check hparent) (.step (yields_check hvalid)
      (.step (yields_check hchildValid) ?_))
    exact .inl ⟨rfl, Db.removeOrChooseSubtree_mismatch h hp hfind hb hc hk sl, rfl⟩

end Round

/-- An absent key. -/
theorem removeOk_absent (K : Set (List UInt8)) (path : NodePtr → List UInt8)
    (lost : NodeType → Nat) (o : OlcDb sizes) (s : Db dbSizes) (k : List UInt8) :
    RemoveOk K path lost o s (.ok false s) k (.done false) o :=
  ⟨[], ⟨s, rfl, rfl, rfl⟩, nofun⟩

/-- The loop of a removal, from any place on the way of its key that holds an inner node. -/
theorem removeLoop_ends (hm : o.Mirrors s) (h : s.Inv K path lost)
    (hstays : s.tree.Stays path (ArtKey.getKeyView k)) {fuel : Nat}
    (hat : s.tree.At path (ArtKey.getKeyView k) sl slot depth rem)
    (hread : s.tree.graph.read slot = some p) (hptype : p.type ≠ .leaf)
    (hlock : parentCs.lock = sl.site) (hparent : o.Valid parentCs)
    (hnode : o.lock (.node p.addr) = .free version)
    (hfuel : (ArtKey.getKeyView k).length < fuel + depth) :
    (removeLoop me k fuel p sl parentCs ⟨.node p.addr, version⟩ rem).Ends P
      (RemoveOk K path lost o s (Db.removeLoop k fuel sl rem s) (ArtKey.getKeyView k))
      (RemoveFails P o (Db.removeLoop k fuel sl rem s)) o := by
  -- The induction is on the fuel, which is more than what is left of the key.
  induction fuel generalizing sl slot depth rem p parentCs version with
  | zero =>
    have := hat.depth_le
    omega
  | succ fuel ih =>
    obtain ⟨n, hp, hwf, -⟩ := h.tree.inode_of_tag hread hptype
    have hload := (h.tree.load_eq hat.slotAt).trans hread
    have hvalid : o.Valid ⟨.node p.addr, version⟩ := hnode
    have hcss : ∀ cs ∈ [parentCs, ⟨.node p.addr, version⟩], o.Valid cs := by
      simp only [List.mem_cons, List.not_mem_nil, or_false, forall_eq_or_imp, forall_eq]
      exact ⟨hparent, hvalid⟩
    rw [removeLoop]
    refine .step (yields_read (hm.deref hp) hcss _) (.step (yields_read (hm.deref hp) hcss _) ?_)
    by_cases hlt : n.keyPrefix.getSharedLength (ArtKey.getU64 rem) < n.keyPrefix.length
    -- The key leaves the prefix: both find nothing.
    · rw [if_pos hlt, Db.removeLoop_leaves hload hp hlt]
      refine .step (yields_check hparent) (.step (yields_check hvalid) ?_)
      exact removeOk_absent ..
    obtain ⟨hshared, rem1, b, rem2, hrem1, hb, hrem2, hpath, hbyte, hlen, hdrop⟩ :=
      hat.pass h.tree hread hp hstays hlt
    rw [if_neg hlt, assertThat_pos hshared, hrem1]
    show Prog.Ends _ _ _ (Prog.lift (ArtKey.byteAt rem1 0) >>= _) _
    rw [hb]
    show Prog.Ends _ _ _ (removeOrChooseSubtree me p b k _ _ _ >>= _) _
    cases hfind : n.findChild b with
    -- No child at the byte: both find nothing.
    | none =>
      have hr : Db.removeOrChooseSubtree p b k sl s = .ok none s := by
        rw [Db.removeOrChooseSubtree, DbM.bind_ok (Db.readInode_ok hp)]
        simp only [hfind]
        rfl
      have hchoose : (removeOrChooseSubtree me p b k parentCs ⟨.node p.addr, version⟩ sl).Yields o
          (.ok .notFound) o := by
        rw [removeOrChooseSubtree]
        refine (yields_reading hm.quiet hvalid hp _).bind ?_
        rw [hfind]
        exact (yields_check hparent).bind ((yields_check hvalid).bind (Prog.Yields.ret _ _))
      rw [Db.removeLoop_pass hload hp hshared hrem1 hb hr]
      exact .step hchoose (removeOk_absent ..)
    | some r =>
      obtain ⟨ci, i⟩ := r
      obtain ⟨c, hc, hslot, -⟩ := hwf.findChild_eq_some hfind
      have hreadc : s.tree.graph.read (.child p b) = some c := by
        rw [Tree.graph_read_child hp, hc]
      obtain ⟨childVersion, hchild⟩ := lock_free h.tree hm.quiet hreadc
      -- A leaf ends the loop, an inner node is the next one.
      by_cases hctype : c.type = .leaf
      · obtain ⟨k', v', hleaf, -⟩ := h.tree.leaf_of_tag hreadc hctype
        refine .bind ((removeOrChooseSubtree_ends hm h hp hc hfind hleaf hparent hnode hchild
          hat.slotAt hread hlock).mono ?_ ?_)
        rotate_left
        · rintro e o' (hbad | ⟨rfl, s', hr⟩)
          · exact .inl hbad
          · exact .inr ⟨rfl, s', Db.removeLoop_fail hload hp hshared hrem1 hb hr⟩
        rintro r o' (⟨rfl, hr, rfl⟩ | ⟨rfl, s', spared, hr, hcarries, hleft⟩)
        · rw [Db.removeLoop_pass hload hp hshared hrem1 hb hr]
          exact removeOk_absent ..
        · rw [Db.removeLoop_pass hload hp hshared hrem1 hb hr]
          exact ⟨spared, ⟨s', rfl, hcarries⟩, fun _ => hleft⟩
      · have hr : Db.removeOrChooseSubtree p b k sl s = .ok (some (some (.child p.addr i))) s := by
          rw [Db.removeOrChooseSubtree, DbM.bind_ok (Db.readInode_ok hp)]
          simp only [hfind]
          rw [DbM.bind_ok (Db.readSlot_ok (h.load_child hp hfind hc)), if_pos hctype]
          rfl
        rw [Db.removeLoop_pass hload hp hshared hrem1 hb hr]
        simp only
        rw [DbM.bind_lift hrem2]
        have hchoose : (removeOrChooseSubtree me p b k parentCs ⟨.node p.addr, version⟩ sl).Yields o
            (.ok (.child (.child p.addr i) c ⟨.node c.addr, childVersion⟩)) o := by
          rw [removeOrChooseSubtree]
          refine (yields_reading hm.quiet hvalid hp _).bind ?_
          rw [hfind]
          refine (yields_loadChild hm.quiet hvalid hp i).bind ?_
          rw [hslot]
          refine (yields_check hvalid).bind ((Prog.Yields.lift (.ok c) o).bind ?_)
          refine (yields_tryReadLock hchild).bind ?_
          simp only
          rw [if_pos hctype]
          exact (yields_check hparent).bind (Prog.Yields.ret _ _)
        refine .step hchoose ?_
        rw [hrem2]
        refine .step (Prog.Yields.lift (.ok rem2) o) ?_
        exact ih (Tree.At.child hp hfind hpath hlen hdrop) hreadc hctype rfl hvalid hchild (by omega)

/-- The last leaf. -/
theorem removeRootLeaf_ends (hm : o.Mirrors s) (h : s.Inv K path lost)
    (hroot : s.tree.root = some p) (hp : s.tree.deref p = some (.leaf (ArtKey.getKeyView k) v))
    {rootVersion : Nat} (hparent : o.lock .root = .free rootVersion)
    (hnode : o.lock (.node p.addr) = .free version) :
    (removeRootLeaf me p ⟨.root, rootVersion⟩ ⟨.node p.addr, version⟩).Ends P
      (RemoveOk K path lost o s (Db.removeInternal k s) (ArtKey.getKeyView k))
      (RemoveFails P o (Db.removeInternal k s)) o := by
  rw [removeRootLeaf]
  refine .step (yields_writeGuard ?_ me) (.step (yields_writeGuard ?_ me)
    (.step (yields_unlockAndObsolete _ _) ?_))
  · exact hparent
  · show (setLock _ _ _).lock _ = _
    rw [setLock_lock, if_neg nofun]
    exact hnode
  have hcleared := hm.toStores.clearedRoot
  have hretired := hcleared.nowRetired (p := p) hp me
  refine .step (yields_act _ _) (.step (yields_onNextEpochDeallocate (hcleared.withLock _) hp me) ?_)
  refine .step (yields_unlock rootVersion me (by simp)) ?_
  obtain ⟨hinv, -⟩ := h.removedRoot hroot hp
  have hheap := (Tree.deref_eq_some_iff.mp hp).1
  refine ⟨[], ⟨_, Db.removeInternal_root h hroot hp, ?_, ⟨[.root], [p.addr], ?_⟩, path, hinv,
    fun _ _ => rfl⟩, fun _ a => iff_of_false List.not_mem_nil ?_⟩
  · exact { hretired with }
  · constructor
    · exact Nat.le_refl _
    · simp [hparent]
    · simp [hnode]
    · simp +contextual
    · intro a ha
      have hap : a = p.addr := by simpa using ha
      rw [hap, hm.heap_eq hheap]
      simp
    · simp
    · intro _ q hq
      obtain rfl := hm.root_eq .root hroot rfl hq
      simp
    · intro a _ _ _ _
      rfl
    · simp
    · simp
    · exact .refl _
  · rintro ⟨q, -, hleft⟩
    exact h.tree.not_leftOver_root hroot hp hleft

/-- A removal attempt of a new thread, on a mirrored `db`. -/
theorem tryRemove_ends (hm : o.Mirrors s) (h : s.Inv K path lost)
    (hstays : s.tree.Stays path (ArtKey.getKeyView k)) :
    (tryRemove me k).Ends P
      (RemoveOk K path lost o s (Db.removeInternal k s) (ArtKey.getKeyView k))
      (RemoveFails P o (Db.removeInternal k s)) o := by
  obtain ⟨rootVersion, hfree⟩ := hm.root_free
  have hvalid : o.Valid ⟨.root, rootVersion⟩ := hfree
  rw [tryRemove]
  refine .step (yields_tryReadLock hfree) (.step yields_loadRoot (.step (yields_check hvalid) ?_))
  rw [hm.quiet.root_eq]
  cases hroot : s.tree.root with
  | none =>
    have hx : Db.removeInternal k s = .ok false s := by
      rw [Db.removeInternal, DbM.bind_get]
      simp only [hroot]
      rfl
    rw [hx]
    exact removeOk_absent ..
  | some root =>
    have hread : s.tree.graph.read .root = some root := hroot
    obtain ⟨version, hnode⟩ := lock_free h.tree hm.quiet hread
    refine .step (yields_tryReadLock hnode) ?_
    simp only
    by_cases htype : root.type = .leaf
    · obtain ⟨k', v', hp, -⟩ := h.tree.leaf_of_tag hread htype
      rw [if_pos htype]
      refine .step (yields_readKey hm.quiet hp) ?_
      by_cases hk : ArtKey.getKeyView k = k'
      · subst hk
        rw [if_pos ((ArtKey.cmp_eq_zero_iff _ _).mpr rfl)]
        exact removeRootLeaf_ends hm h hroot hp hfree hnode
      · have hx : Db.removeInternal k s = .ok false s := by
          rw [Db.removeInternal, DbM.bind_get]
          simp only [hroot]
          rw [if_pos htype, DbM.bind_ok (Db.readKey_ok hp),
            if_neg (mt (ArtKey.cmp_eq_zero_iff _ _).mp hk)]
          rfl
        rw [if_neg (mt (ArtKey.cmp_eq_zero_iff _ _).mp hk), hx]
        exact .step (yields_check hnode) (removeOk_absent ..)
    · rw [if_neg htype, Db.removeInternal, DbM.bind_get]
      simp only [hroot]
      rw [if_neg htype]
      refine removeLoop_ends hm h hstays (Tree.At.root s.tree path k) hread htype rfl hvalid
        hnode ?_
      rw [LawfulArtKey.size_eq]
      omega

end OlcDb

end Unodb
