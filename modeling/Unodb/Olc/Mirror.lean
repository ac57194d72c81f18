import Unodb.Db.Remove
import Unodb.Olc.World
import Unodb.Olc.Alone

/-!
# An `olc_db` as the mirror of a `db`

While no other thread acts, the nodes of an `olc_db` that are not retired, and its counters, are
those of a `db` on which the same operations have been called.  Each action under the write locks
is one that the `db` makes as well.
-/

namespace Unodb

instance : Nonempty Choice := ⟨{}⟩

theorem Db.allocated_deref {s : Db dbSizes} {p : NodePtr} (hp : p.addr ≠ s.next) (body : Body) :
    (s.allocated body).tree.deref p = s.tree.deref p :=
  Tree.deref_set_ne _ hp _

/-- A later state of the same node: a leaf as it was, or an inner node of its type whose key prefix is
    no longer than before, unless it may grow. -/
def Body.Ages (grows : Prop) : Body → Body → Prop
  | .leaf k v, .leaf k' v' => k' = k ∧ v' = v
  | .inode n, .inode n' => n'.type = n.type ∧ (grows ∨ n'.keyPrefix.length ≤ n.keyPrefix.length)
  | _, _ => False

/-- All nodes are still in memory, and only key prefixes of nodes in `spared` may have grown. -/
def Tree.Ages (spared : List Nat) (t t' : Tree) : Prop :=
  ∀ a body, t.heap a = some body → ∃ body', t'.heap a = some body' ∧ body.Ages (a ∈ spared) body'

section Ages

variable {grows : Prop} {spared : List Nat} {t t' : Tree} {body body' body'' : Body}
  {n n' : INode NodePtr}

theorem Body.Ages.refl (body : Body) : body.Ages grows body := by
  cases body with
  | leaf k v => exact ⟨rfl, rfl⟩
  | inode n => exact ⟨rfl, .inr (Nat.le_refl _)⟩

theorem Body.Ages.trans (h : body.Ages grows body') (h' : body'.Ages grows body'') :
    body.Ages grows body'' := by
  cases body <;> cases body' <;> cases body'' <;> try contradiction
  case leaf => exact ⟨h'.1.trans h.1, h'.2.trans h.2⟩
  case inode =>
    refine ⟨h'.1.trans h.1, ?_⟩
    rcases h.2 with hgrows | hle
    · exact .inl hgrows
    · exact h'.2.imp id fun hle' => hle'.trans hle

theorem Body.Ages.mono (h : body.Ages grows body') {grows' : Prop} (hgrows : grows → grows') :
    body.Ages grows' body' := by
  cases body <;> cases body' <;> try contradiction
  case leaf => exact h
  case inode => exact ⟨h.1, h.2.imp_left hgrows⟩

theorem Body.Ages.type_eq (h : body.Ages grows body') : body'.type = body.type := by
  cases body <;> cases body' <;> try contradiction
  case leaf => rfl
  case inode => exact h.1

theorem Body.Ages.inode (h : Body.Ages grows (.inode n) body') : ∃ n', body' = .inode n' := by
  cases body' with
  | leaf => cases h
  | inode n' => exact ⟨n', rfl⟩

theorem Body.Ages.of_keyPrefix_eq (htype : n'.type = n.type) (hpre : n'.keyPrefix = n.keyPrefix) :
    Body.Ages grows (.inode n) (.inode n') :=
  ⟨htype, .inr (by rw [hpre])⟩

theorem Tree.Ages.refl (t : Tree) : t.Ages spared t := fun _ body ha => ⟨body, ha, .refl body⟩

theorem Tree.Ages.trans {t'' : Tree} (h : t.Ages spared t') (h' : t'.Ages spared t'') :
    t.Ages spared t'' := by
  intro a body ha
  obtain ⟨body', ha', hbody⟩ := h a body ha
  obtain ⟨body'', ha'', hbody'⟩ := h' a body' ha'
  exact ⟨body'', ha'', hbody.trans hbody'⟩

/-- What is put at an address ages the node that was there. -/
theorem Tree.Ages.set {x : Nat} (h : t.Ages spared t')
    (hx : ∀ body₀, t.heap x = some body₀ → body₀.Ages (x ∈ spared) body) :
    t.Ages spared (t'.set x (some body)) := by
  intro a body₀ ha
  rw [Tree.set_heap]
  split
  · subst a
    exact ⟨body, rfl, hx body₀ ha⟩
  · exact h a body₀ ha

/-- A new node does not concern the others. -/
theorem Tree.Ages.add {x : Nat} (h : t.Ages spared t') (hx : t.heap x = none) (body : Body) :
    t.Ages spared (t'.set x (some body)) :=
  h.set fun _ hbody => nomatch hx.symm.trans hbody

/-- A node that is changed in place. -/
theorem Tree.Ages.write {x : Nat} (h : t.Ages spared t') (hx : t.heap x = some body)
    (hbody : body.Ages (x ∈ spared) body') : t.Ages spared (t'.set x (some body')) :=
  h.set fun body₀ hx₀ => by
    obtain rfl := Option.some_inj.mp (hx.symm.trans hx₀)
    exact hbody

theorem Tree.Ages.store (h : t.Ages spared t') (sl : Slot) (q : NodePtr) :
    t.Ages spared (t'.store sl q) := by
  intro a body ha
  obtain ⟨body', ha', hbody⟩ := h a body ha
  cases sl with
  | root => exact ⟨body', ha', hbody⟩
  | child x i =>
    simp only [Tree.store]
    split
    · rename_i n hx
      show ∃ body', Function.update t'.heap x _ a = some body' ∧ _
      by_cases hax : a = x
      · subst a
        obtain rfl := Option.some_inj.mp (ha'.symm.trans hx)
        rw [Function.update_self]
        exact ⟨_, rfl, hbody.trans (.of_keyPrefix_eq (n.setSlot_type i q) (n.setSlot_keyPrefix i q))⟩
      · rw [Function.update_of_ne hax]
        exact ⟨body', ha', hbody⟩
    · exact ⟨body', ha', hbody⟩

theorem Tree.Ages.kept (h : t.Ages spared t') {a : Nat} (ha : t.heap a ≠ none) : t'.heap a ≠ none := by
  obtain ⟨body, hbody⟩ := Option.ne_none_iff_exists'.mp ha
  obtain ⟨body', hbody', -⟩ := h a body hbody
  rw [hbody']
  simp

end Ages

namespace OlcDb

variable {o : OlcDb sizes} {s : Db dbSizes} {p q : NodePtr} {body : Body} {n n' : INode NodePtr}
  {a me : Nat}

/-- The memory and the counters of a `db`, where the retired nodes count as freed. -/
structure Stores (o : OlcDb sizes) (s : Db dbSizes) : Prop where
  tree : o.counted = s.tree
  next : o.next = s.next
  nodeCounts : o.stats.nodeCounts = s.stats.nodeCounts
  growing : o.stats.growingInodeCounts = s.stats.growingInodeCounts
  shrinking : o.stats.shrinkingInodeCounts = s.stats.shrinkingInodeCounts
  splits : o.stats.keyPrefixSplits = s.stats.keyPrefixSplits
  accounted : Accounted sizes s.tree s.next o.stats
  fresh : ∀ {a}, s.next ≤ a → o.mem.heap a = none
  retired : ∀ {t p}, (t, p) ∈ o.retired → p.addr < s.next

/-- The mirror of a `db` between two operations: no lock is taken, and the retired nodes are
    obsolete. -/
structure Mirrors (o : OlcDb sizes) (s : Db dbSizes) : Prop extends Stores o s where
  root_free : ∃ version, o.lock .root = .free version
  node_free : ∀ {a body}, s.tree.heap a = some body → ∃ version, o.lock (.node a) = .free version
  fresh_free : ∀ {a}, s.next ≤ a → o.lock (.node a) = .free 0
  obsolete : ∀ {t p}, (t, p) ∈ o.retired → o.lock (.node p.addr) = .obsolete

/-! ## 1. The memory of both -/

theorem counted_heap (o : OlcDb sizes) (a : Nat) :
    o.counted.heap a = if a ∈ o.retired.map (·.2.addr) then none else o.mem.heap a := rfl

theorem Stores.heap_eq (h : o.Stores s) (ha : s.tree.heap a = some body) :
    o.mem.heap a = some body := by
  rw [← h.tree, counted_heap] at ha
  split at ha
  · cases ha
  · exact ha

theorem Stores.not_retired (h : o.Stores s) (ha : s.tree.heap a ≠ none) :
    a ∉ o.retired.map (·.2.addr) := by
  intro hmem
  rw [← h.tree, counted_heap, if_pos hmem] at ha
  exact ha rfl

theorem Stores.fresh_not_retired (h : o.Stores s) (ha : s.next ≤ a) :
    a ∉ o.retired.map (·.2.addr) := by
  intro hmem
  obtain ⟨r, hr, rfl⟩ := List.mem_map.mp hmem
  have := h.retired (t := r.1) (p := r.2) hr
  omega

theorem Stores.unused (h : o.Stores s) (i : Nat) : o.mem.heap (o.next + i) = none :=
  h.fresh (h.next ▸ Nat.le_add_right _ i)

theorem Stores.deref (h : o.Stores s) (hp : s.tree.deref p = some body) :
    o.mem.deref p = some body := by
  obtain ⟨hheap, htype⟩ := Tree.deref_eq_some_iff.mp hp
  exact Tree.deref_eq_some_iff.mpr ⟨h.heap_eq hheap, htype⟩

/-- What is put at an address that is not retired. -/
theorem counted_set (o : OlcDb sizes) (ha : a ∉ o.retired.map (·.2.addr)) (body : Option Body) :
    ({ o with mem := o.mem.set a body } : OlcDb sizes).counted = o.counted.set a body := by
  unfold counted Tree.set
  rw [Tree.mk.injEq]
  refine ⟨rfl, funext fun x => ?_⟩
  simp only [Function.update_apply]
  by_cases hx : x = a
  · rw [hx, if_neg ha, if_pos rfl, if_pos rfl]
  · rw [if_neg hx, if_neg hx]

theorem counted_retire (o : OlcDb sizes) (me : Nat) (p : NodePtr) (stats : Stats) :
    ({ o with retired := (me, p) :: o.retired, stats } : OlcDb sizes).counted =
      o.counted.set p.addr none := by
  unfold counted Tree.set
  rw [Tree.mk.injEq]
  refine ⟨rfl, funext fun x => ?_⟩
  simp only [Function.update_apply, List.map_cons, List.mem_cons]
  by_cases hx : x = p.addr
  · rw [if_pos (.inl hx), if_pos hx]
  · rw [if_neg hx]
    by_cases hmem : x ∈ o.retired.map (·.2.addr)
    · rw [if_pos (.inr hmem), if_pos hmem]
    · rw [if_neg (not_or.mpr ⟨hx, hmem⟩), if_neg hmem]

/-- The node that holds a place, if it is not the root pointer, is there. -/
def SlotIn (t : Tree) (sl : Slot) : Prop := ∀ a i, sl = .child a i → t.heap a ≠ none

theorem slotIn_of_slotAt {t : Tree} {sl : Slot} {slot : Radix.Slot NodePtr UInt8}
    (hsl : t.SlotAt sl slot) : SlotIn t sl := by
  rintro a i rfl hnone
  exact hsl.ne_of_heap_none hnone i rfl

theorem SlotIn.set {t : Tree} {sl : Slot} (h : SlotIn t sl) (a : Nat) (body : Body) :
    SlotIn (t.set a (some body)) sl := by
  rintro x i rfl
  rw [Tree.set_heap]
  split
  · simp
  · exact h x i rfl

theorem SlotIn.set_none {t : Tree} {sl : Slot} (h : SlotIn t sl) {a : Nat}
    (ha : sl.site ≠ .node a) : SlotIn (t.set a none) sl := by
  rintro x i rfl
  rw [Tree.set_heap, if_neg fun heq => ha (congrArg Site.node heq)]
  exact h x i rfl

theorem store_root {t : Tree} {sl : Slot} (hsl : .root ≠ sl.site) (q : NodePtr) :
    (t.store sl q).root = t.root := by
  cases sl with
  | root => exact absurd rfl hsl
  | child x i =>
    simp only [Tree.store]
    split <;> rfl

theorem store_heap {t : Tree} {sl : Slot} (hsl : .node a ≠ sl.site) (q : NodePtr) :
    (t.store sl q).heap a = t.heap a := by
  refine Tree.store_heap_of_ne t ?_ q
  rintro i rfl
  exact hsl rfl

/-- The node that holds a place is in memory. -/
theorem Stores.slot_known (h : o.Stores s) {sl : Slot} (hsl : SlotIn s.tree sl)
    (ha : .node a = sl.site) : o.mem.heap a ≠ none := by
  cases sl with
  | root => cases ha
  | child x i =>
    obtain ⟨body, hbody⟩ := Option.ne_none_iff_exists'.mp (hsl x i rfl)
    rw [Site.node.inj ha, h.heap_eq hbody]
    simp

theorem counted_store (o : OlcDb sizes) {sl : Slot} (hsl : SlotIn o.counted sl) (q : NodePtr) :
    ({ o with mem := o.mem.store sl q } : OlcDb sizes).counted = o.counted.store sl q := by
  cases sl with
  | root => rfl
  | child a i =>
    have ha : a ∉ o.retired.map (·.2.addr) := fun hmem =>
      hsl a i rfl (by rw [counted_heap, if_pos hmem])
    have hheap : o.counted.heap a = o.mem.heap a := by rw [counted_heap, if_neg ha]
    simp only [Tree.store, hheap]
    split
    · exact counted_set o ha _
    · rfl

/-! ## 2. Actions on both -/

/-- The state after a node is allocated. -/
def allocated (o : OlcDb sizes) (body : Body) : OlcDb sizes :=
  { o with
    mem := o.mem.set o.next (some body)
    next := o.next + 1
    stats := Accounted.counted sizes o.stats body }

/-- The state after a node that no other thread knows is freed. -/
def freed (o : OlcDb sizes) (p : NodePtr) (body : Body) : OlcDb sizes :=
  { o with mem := o.mem.set p.addr none, stats := Accounted.uncounted sizes o.stats body }

/-- The state after a node is passed to `on_next_epoch_deallocate`. -/
def nowRetired (o : OlcDb sizes) (me : Nat) (p : NodePtr) (body : Body) : OlcDb sizes :=
  { o with retired := (me, p) :: o.retired, stats := Accounted.uncounted sizes o.stats body }

/-- The state after a store of a pointer. -/
def stored (o : OlcDb sizes) (sl : Slot) (q : NodePtr) : OlcDb sizes := { o with mem := o.mem.store sl q }

/-- The state after an inner node is changed in place. -/
def written (o : OlcDb sizes) (a : Nat) (n : INode NodePtr) : OlcDb sizes :=
  { o with mem := o.mem.set a (some (.inode n)) }

section Parts

variable (o : OlcDb sizes) (sl : Slot) (l x : Site) (word : LockWord) (st : Stats)

@[simp] theorem setLock_lock : (o.setLock l word).lock x = if x = l then word else o.lock x := by
  simp only [setLock, Function.update_apply]

@[simp] theorem setLock_mem : (o.setLock l word).mem = o.mem := rfl

@[simp] theorem setLock_next : (o.setLock l word).next = o.next := rfl

@[simp] theorem setLock_retired : (o.setLock l word).retired = o.retired := rfl

@[simp] theorem allocated_lock : (o.allocated body).lock = o.lock := rfl

@[simp] theorem allocated_mem : (o.allocated body).mem = o.mem.set o.next (some body) := rfl

@[simp] theorem allocated_next : (o.allocated body).next = o.next + 1 := rfl

@[simp] theorem allocated_retired : (o.allocated body).retired = o.retired := rfl

@[simp] theorem nowRetired_lock : (o.nowRetired me p body).lock = o.lock := rfl

@[simp] theorem nowRetired_mem : (o.nowRetired me p body).mem = o.mem := rfl

@[simp] theorem nowRetired_next : (o.nowRetired me p body).next = o.next := rfl

@[simp] theorem nowRetired_retired : (o.nowRetired me p body).retired = (me, p) :: o.retired := rfl

@[simp] theorem stored_lock : (o.stored sl q).lock = o.lock := rfl

@[simp] theorem stored_mem : (o.stored sl q).mem = o.mem.store sl q := rfl

@[simp] theorem stored_next : (o.stored sl q).next = o.next := rfl

@[simp] theorem stored_retired : (o.stored sl q).retired = o.retired := rfl

@[simp] theorem written_lock : (o.written a n).lock = o.lock := rfl

@[simp] theorem written_mem : (o.written a n).mem = o.mem.set a (some (.inode n)) := rfl

@[simp] theorem written_next : (o.written a n).next = o.next := rfl

@[simp] theorem written_retired : (o.written a n).retired = o.retired := rfl

end Parts

theorem alloc_eq (o : OlcDb sizes) (body : Body) :
    o.alloc body = .ok (⟨o.next, body.type⟩, o.allocated body) := by
  rw [alloc, Accounted.increment_eq]
  rfl

/-- A node allocated and freed again leaves no trace but its address. -/
theorem freed_allocated (o : OlcDb sizes) (body : Body) (hnone : o.mem.heap o.next = none) :
    (o.allocated body).freed ⟨o.next, body.type⟩ body = { o with next := o.next + 1 } := by
  rw [freed, allocated]
  simp only [o.mem.set_none_set body hnone, Accounted.uncounted_counted]

namespace Stores

/-- The locks do not matter. -/
theorem withLock (h : o.Stores s) (lock : Site → LockWord) :
    Stores ({ o with lock } : OlcDb sizes) s :=
  { h with }

theorem setLock (h : o.Stores s) (l : Site) (word : LockWord) : (o.setLock l word).Stores s :=
  { h with }

theorem allocated (h : o.Stores s) (body : Body) :
    (o.allocated body).Stores (s.allocated body) where
  tree := by
    have hset := counted_set o (h.fresh_not_retired (Nat.le_of_eq h.next.symm)) (some body)
    unfold OlcDb.allocated Db.allocated
    rw [← h.tree, ← h.next]
    exact hset
  next := congrArg (· + 1) h.next
  nodeCounts := by
    show Function.update _ _ _ = Function.update _ _ _
    rw [h.nodeCounts]
  growing := h.growing
  shrinking := h.shrinking
  splits := h.splits
  accounted := h.accounted.alloc body
  fresh {a} ha := by
    have hne : a ≠ o.next := by
      rw [h.next]
      exact fun heq => Nat.not_succ_le_self _ (heq ▸ ha)
    show (o.mem.set o.next _).heap a = none
    rw [Tree.set_heap, if_neg hne]
    exact h.fresh (Nat.le_of_succ_le ha)
  retired hmem := Nat.lt_succ_of_lt (h.retired hmem)

theorem freed (h : o.Stores s) (hp : s.tree.deref p = some body) :
    (o.freed p body).Stores (s.freed p body) where
  tree := by
    have hheap := (Tree.deref_eq_some_iff.mp hp).1
    have hset := counted_set o (h.not_retired (a := p.addr) (by simp [hheap])) none
    unfold OlcDb.freed Db.freed
    rw [← h.tree]
    exact hset
  next := h.next
  nodeCounts := by
    show Function.update _ _ _ = Function.update _ _ _
    rw [h.nodeCounts]
  growing := h.growing
  shrinking := h.shrinking
  splits := h.splits
  accounted := h.accounted.free (Tree.deref_eq_some_iff.mp hp).1
  fresh {a} ha := by
    show (o.mem.set p.addr none).heap a = none
    rw [Tree.set_heap]
    split
    · rfl
    · exact h.fresh ha
  retired := h.retired

theorem nowRetired (h : o.Stores s) (hp : s.tree.deref p = some body) (me : Nat) :
    (o.nowRetired me p body).Stores (s.freed p body) where
  tree := by
    have hset := counted_retire o me p (Accounted.uncounted sizes o.stats body)
    unfold OlcDb.nowRetired Db.freed
    rw [← h.tree]
    exact hset
  next := h.next
  nodeCounts := by
    show Function.update _ _ _ = Function.update _ _ _
    rw [h.nodeCounts]
  growing := h.growing
  shrinking := h.shrinking
  splits := h.splits
  accounted := h.accounted.free (Tree.deref_eq_some_iff.mp hp).1
  fresh := h.fresh
  retired {t q} hmem := by
    rcases List.mem_cons.mp hmem with heq | hmem
    · rw [(Prod.mk.inj heq).2]
      exact h.accounted.lt_next (Tree.deref_eq_some_iff.mp hp).1
    · exact h.retired hmem

theorem stored (h : o.Stores s) {sl : Slot} (hsl : SlotIn s.tree sl) (q : NodePtr) :
    (o.stored sl q).Stores ({ s with tree := s.tree.store sl q } : Db dbSizes) :=
  { h with
    tree := by
      rw [← h.tree] at hsl ⊢
      exact counted_store o hsl q
    accounted := h.accounted.store sl q
    fresh := fun {a} ha => by
      show (o.mem.store sl q).heap a = none
      rw [Tree.store_heap_eq_none_iff]
      exact h.fresh ha }

theorem written (h : o.Stores s) (ha : s.tree.heap a = some (.inode n)) (htype : n'.type = n.type) :
    (o.written a n').Stores ({ s with tree := s.tree.set a (some (.inode n')) } : Db dbSizes) :=
  { h with
    tree := by
      have hset := counted_set o (h.not_retired (a := a) (by simp [ha])) (some (.inode n'))
      rw [← h.tree]
      exact hset
    accounted := h.accounted.updateInode ha htype
    fresh := fun {x} hx => by
      have hlt : a < x := Nat.lt_of_lt_of_le (h.accounted.lt_next ha) hx
      show (o.mem.set a _).heap x = none
      rw [Tree.set_heap, if_neg (Nat.ne_of_gt hlt)]
      exact h.fresh hx }

/-- A node that is allocated first and constructed later. -/
theorem constructed (h : o.Stores s) (htype : n'.type = n.type) :
    ((o.allocated (.inode n)).written o.next n').Stores (s.allocated (.inode n')) := by
  have hset := (h.allocated (.inode n)).written (a := s.next) (n := n)
    (by rw [Db.allocated, Tree.set_heap, if_pos rfl]) htype
  have hstate : ({ s.allocated (.inode n) with
      tree := (s.allocated (.inode n)).tree.set s.next (some (.inode n')) } : Db dbSizes) =
      s.allocated (.inode n') := by
    simp only [Db.allocated, Tree.set_set, Accounted.counted_inode dbSizes s.stats htype]
  rw [h.next]
  exact hstate ▸ hset

/-- Counters that do not depend on what is in memory. -/
theorem withStats (h : o.Stores s) {st st' : Stats} (hcounts : st.nodeCounts = o.stats.nodeCounts)
    (hmemory : st.currentMemoryUse = o.stats.currentMemoryUse)
    (hcounts' : st'.nodeCounts = s.stats.nodeCounts)
    (hgrowing : st.growingInodeCounts = st'.growingInodeCounts)
    (hshrinking : st.shrinkingInodeCounts = st'.shrinkingInodeCounts)
    (hsplits : st.keyPrefixSplits = st'.keyPrefixSplits) :
    Stores ({ o with stats := st } : OlcDb sizes) ({ s with stats := st' } : Db dbSizes) :=
  { h with
    nodeCounts := by rw [hcounts, hcounts', h.nodeCounts]
    growing := hgrowing
    shrinking := hshrinking
    splits := hsplits
    accounted := ⟨h.accounted.fresh, fun type => by rw [hcounts]; exact h.accounted.counts type,
      by rw [hmemory]; exact h.accounted.memory⟩ }

theorem grown (h : o.Stores s) (type : NodeType) :
    Stores ({ o with stats := o.stats.grown type } : OlcDb sizes)
      ({ s with stats := s.stats.grown type } : Db dbSizes) :=
  h.withStats rfl rfl rfl (by simp only [Stats.grown, h.growing]) h.shrinking h.splits

theorem keyPrefixSplit (h : o.Stores s) :
    Stores ({ o with stats.keyPrefixSplits := o.stats.keyPrefixSplits + 1 } : OlcDb sizes)
      ({ s with stats.keyPrefixSplits := s.stats.keyPrefixSplits + 1 } : Db dbSizes) :=
  h.withStats rfl rfl rfl h.growing h.shrinking (congrArg (· + 1) h.splits)

theorem shrunk (h : o.Stores s) (type : NodeType) :
    Stores ({ o with stats := o.stats.shrunk type } : OlcDb sizes)
      ({ s with stats := s.stats.shrunk type } : Db dbSizes) :=
  h.withStats rfl rfl rfl h.growing (by simp only [Stats.shrunk, h.shrinking]) h.splits

end Stores

/-! ## 3. What the actions come to -/

section Actions

variable {β : Type} {cs : CriticalSection} {css : List CriticalSection}

theorem yields_act (f : OlcDb sizes → β × OlcDb sizes) (o : OlcDb sizes) :
    (act f).Yields o (.ok (f o).1) (f o).2 := Prog.Yields.action fun _ => rfl

theorem yields_tryAct_ok {f : Choice → OlcDb sizes → Except Fault (β × OlcDb sizes)} {b : β}
    {o' : OlcDb sizes}
    (h : ∀ c, f c o = .ok (b, o')) : (tryAct f).Yields o (.ok b) o' :=
  Prog.Yields.bind (Prog.Yields.action (a := .ok b) fun c => by rw [h c])
    (Prog.Yields.lift (.ok b) o')

theorem yields_tryAct_error {f : Choice → OlcDb sizes → Except Fault (β × OlcDb sizes)} {e : Fault}
    (h : ∀ c, f c o = .error e) : (tryAct f).Yields o (.error e) o :=
  Prog.Yields.bind (Prog.Yields.action (a := .error e) fun c => by rw [h c])
    (Prog.Yields.lift (.error e) o)

theorem yields_writeGuard (hcs : o.Valid cs) (me : Nat) :
    (writeGuard me cs).Yields o (.ok true) (o.setLock cs.lock (.locked cs.version me)) :=
  Prog.Yields.action fun _ => by
    have hfree : o.lock cs.lock = .free cs.version := hcs
    simp only [hfree, if_true]

theorem yields_unlock {l : Site} (version me : Nat) (hl : o.lock l = .locked version me) :
    (unlock l).Yields o (.ok ()) (o.setLock l (.free (version + 1))) :=
  Prog.Yields.action fun _ => by
    simp only [hl]
    rfl

theorem yields_unlockAndObsolete (o : OlcDb sizes) (l : Site) :
    (unlockAndObsolete l).Yields o (.ok ()) (o.setLock l .obsolete) := yields_act _ o

theorem yields_storeSlot (o : OlcDb sizes) (sl : Slot) (q : NodePtr) :
    (storeSlot sl q).Yields o (.ok ()) (o.stored sl q) := yields_act _ o

/-- A read in which no section is invalid. -/
theorem yields_read (hp : o.mem.deref p = some (.inode n)) (hcss : ∀ cs ∈ css, o.Valid cs)
    (f : INode NodePtr → β) : (reading css p f).Yields o (.ok (f n)) o := by
  refine yields_tryAct_ok fun c => ?_
  rw [Tree.readInode_ok hp]
  show Except.ok (f (o.view c css n), o) = _
  rw [view, if_pos hcss]

theorem yields_updateInode {f : INode NodePtr → Except Fault (INode NodePtr)}
    (hp : o.mem.deref p = some (.inode n)) (hn' : f n = .ok n') :
    (updateInode p f).Yields o (.ok ()) (o.written p.addr n') := by
  refine yields_tryAct_ok fun _ => ?_
  rw [Tree.readInode_ok hp]
  simp only [bind, Except.bind, hn']
  rfl

theorem yields_updateInode_error {f : INode NodePtr → Except Fault (INode NodePtr)} {e : Fault}
    (hp : o.mem.deref p = some (.inode n)) (hn' : f n = .error e) :
    (updateInode p f).Yields o (.error e) o := by
  refine yields_tryAct_error fun _ => ?_
  rw [Tree.readInode_ok hp]
  simp only [bind, Except.bind, hn']

theorem yields_free (h : o.Stores s) (hp : s.tree.deref p = some body) :
    (free p).Yields o (.ok ()) (o.freed p body) := by
  refine yields_tryAct_ok fun _ => ?_
  simp only [h.deref hp]
  rw [h.accounted.decrement_eq (Tree.deref_eq_some_iff.mp hp).1]
  rfl

theorem yields_onNextEpochDeallocate (h : o.Stores s) (hp : s.tree.deref p = some body) (me : Nat) :
    (onNextEpochDeallocate me p).Yields o (.ok ()) (o.nowRetired me p body) := by
  refine yields_tryAct_ok fun _ => ?_
  simp only [h.deref hp]
  rw [h.accounted.decrement_eq (Tree.deref_eq_some_iff.mp hp).1]
  rfl

variable {α : Type} {P : Choice → Prop} {Q : α → OlcDb sizes → Prop} {E : Fault → OlcDb sizes → Prop}

/-- An allocation of a leaf, and the rest: it is refused, fails, or succeeds. -/
theorem ends_makeDbLeafPtr {κ : Type} [ArtKey κ] {k : κ} {v : List UInt8} {f : NodePtr → OlcM sizes α}
    (hrefused : ∀ what, Db.leafRefusal k v = some what → E (.lengthError what) o)
    (hfails : ∀ c, P c → c.badAlloc = true → Db.leafRefusal k v = none → E .badAlloc o)
    (hok : Db.leafRefusal k v = none →
      (f ⟨o.next, .leaf⟩).Ends P Q E (o.allocated (.leaf (ArtKey.getKeyView k) v))) :
    (makeDbLeafPtr k v >>= f).Ends P Q E o := by
  cases hfits : Db.leafRefusal k v with
  | some what =>
    have hend := hrefused what hfits
    intro c _
    simp only [hfits]
    exact ⟨_, _, rfl, hend⟩
  | none =>
    intro c hc
    simp only [hfits]
    cases hbad : c.badAlloc with
    | true => exact ⟨_, _, rfl, hfails c hc hbad hfits⟩
    | false =>
      rw [if_neg Bool.false_ne_true, alloc_eq]
      exact ⟨_, _, rfl, hok hfits⟩

theorem ends_tryMakeDbInode {type : NodeType} {keyPrefix : KeyPrefix}
    {f : Option NodePtr → OlcM sizes α}
    (hfails : ∀ c, P c → c.badAlloc = true → (f none).Ends P Q E o)
    (hok : (f (some ⟨o.next, (INode.blank type keyPrefix).type⟩)).Ends P Q E
      (o.allocated (.inode (INode.blank type keyPrefix)))) :
    (tryMakeDbInode type keyPrefix >>= f).Ends P Q E o := by
  intro c hc
  cases hbad : c.badAlloc with
  | true =>
    simp only [hbad, if_true]
    exact ⟨_, _, rfl, hfails c hc hbad⟩
  | false =>
    simp only [hbad, Bool.false_eq_true, if_false, alloc_eq]
    exact ⟨_, _, rfl, hok⟩

/-- An allocation of an inner node, and the rest. -/
theorem ends_makeDbInode {cachedLeaf : Option NodePtr} {type : NodeType} {keyPrefix : KeyPrefix}
    {f : NodePtr → OlcM sizes α}
    (hfails : ∀ c, P c → c.badAlloc = true →
      (resetLeaf cachedLeaf).Ends P (fun _ s => E .badAlloc s) E o)
    (hok : (f ⟨o.next, (INode.blank type keyPrefix).type⟩).Ends P Q E
      (o.allocated (.inode (INode.blank type keyPrefix)))) :
    (makeDbInode cachedLeaf type keyPrefix >>= f).Ends P Q E o := by
  apply Prog.Ends.bind
  exact ends_tryMakeDbInode (fun c hc hbad => Prog.Ends.bind (hfails c hc hbad)) hok

end Actions

/-! ## 4. What an update leaves behind -/

/-- What an update does to the locks: it bumps the versions of some and makes some nodes obsolete,
    which it retires.  What the other locks protect stays the same, apart from the prefixes of the
    nodes in `spared`.  Where the root pointer changes, so does the lock of the old root. -/
structure Writes (o o' : OlcDb sizes) (bumped : List Site) (killed spared : List Nat) : Prop where
  next : o.next ≤ o'.next
  bump : ∀ l ∈ bumped, ∃ version, o.lock l = .free version ∧ o'.lock l = .free (version + 1)
  kill : ∀ a ∈ killed, (∃ version, o.lock (.node a) = .free version) ∧
    o'.lock (.node a) = .obsolete
  lock : ∀ l, l ∉ bumped → (∀ a ∈ killed, l ≠ .node a) → o'.lock l = o.lock l
  known : ∀ a, .node a ∈ bumped ∨ a ∈ killed → o.mem.heap a ≠ none
  root : .root ∉ bumped → o'.mem.root = o.mem.root
  rooted : .root ∈ bumped → ∀ q, o.mem.root = some q → .node q.addr ∈ bumped ∨ q.addr ∈ killed
  node : ∀ a, a < o.next → .node a ∉ bumped → a ∉ killed → a ∉ spared →
    o'.mem.heap a = o.mem.heap a
  prefixes : ∀ a ∈ spared, .node a ∉ bumped ∧ a ∉ killed ∧ ∃ n n', o.mem.heap a = some (.inode n) ∧
    o'.mem.heap a = some (.inode n') ∧ n' = { n with keyPrefix := n'.keyPrefix } ∧
    n.keyPrefix.length < n'.keyPrefix.length
  retired : o'.retired.map (·.2.addr) = killed ++ o.retired.map (·.2.addr)
  ages : o.mem.Ages spared o'.mem

/-- Behind the root pointer there is the root. -/
theorem Stores.root_eq (h : o.Stores s) {sl : Slot} {slot : Radix.Slot NodePtr UInt8}
    (hsl : s.tree.SlotAt sl slot) (hread : s.tree.graph.read slot = some p) (hsite : .root = sl.site)
    (hq : o.mem.root = some q) : q = p := by
  cases hsl with
  | root =>
    rw [← h.tree] at hread
    exact Option.some_inj.mp (hq.symm.trans hread)
  | child => cases hsite

/-- Nothing but the next address has changed. -/
def Restored (o o' : OlcDb sizes) : Prop := o.next ≤ o'.next ∧ o' = { o with next := o'.next }

theorem Restored.refl (o : OlcDb sizes) : Restored o o := ⟨Nat.le_refl _, rfl⟩

/-- After an update that takes the mirrored `db` from `s` to `s'`, the one `olc_db` mirrors the
    other `db`. -/
theorem Mirrors.of_writes {o' : OlcDb sizes} {s' : Db dbSizes} {bumped : List Site}
    {killed spared : List Nat}
    (h : o.Mirrors s) (hw : Writes o o' bumped killed spared) (h' : o'.Stores s') :
    o'.Mirrors s' := by
  have hlt : ∀ {a}, .node a ∈ bumped ∨ a ∈ killed → a < s.next := fun {a} ha => by
    by_contra hge
    exact hw.known a ha (h.fresh (Nat.le_of_not_lt hge))
  have hnext : s.next ≤ s'.next := by
    rw [← h.next, ← h'.next]
    exact hw.next
  refine { h' with root_free := ?_, node_free := ?_, fresh_free := ?_, obsolete := ?_ }
  · by_cases hbumped : .root ∈ bumped
    · obtain ⟨version, -, hfree⟩ := hw.bump _ hbumped
      exact ⟨_, hfree⟩
    · obtain ⟨version, hfree⟩ := h.root_free
      exact ⟨version, (hw.lock _ hbumped fun a _ => nofun).trans hfree⟩
  · intro a body ha
    by_cases hbumped : .node a ∈ bumped
    · obtain ⟨version, -, hfree⟩ := hw.bump _ hbumped
      exact ⟨_, hfree⟩
    have hkilled : a ∉ killed := by
      intro hmem
      refine h'.not_retired (a := a) (by rw [ha]; simp) ?_
      rw [hw.retired]
      exact List.mem_append_left _ hmem
    have hlock := hw.lock (.node a) hbumped fun x hx heq => hkilled (Site.node.inj heq ▸ hx)
    by_cases hfresh : s.next ≤ a
    · exact ⟨0, hlock.trans (h.fresh_free hfresh)⟩
    -- A node of the tree that is not new was there before.
    have hnot : a ∉ o.retired.map (·.2.addr) := by
      intro hmem
      refine h'.not_retired (a := a) (by rw [ha]; simp) ?_
      rw [hw.retired]
      exact List.mem_append_right _ hmem
    have hmem : o.mem.heap a ≠ none := by
      by_cases hspared : a ∈ spared
      · obtain ⟨-, -, n, -, hn, -⟩ := hw.prefixes a hspared
        rw [hn]
        simp
      · have hsame := hw.node a (by have := h.next; omega) hbumped hkilled hspared
        rw [← hsame, h'.heap_eq ha]
        simp
    obtain ⟨body₀, hbody₀⟩ := Option.ne_none_iff_exists'.mp hmem
    have hin : s.tree.heap a = some body₀ := by
      rw [← h.tree, counted_heap, if_neg hnot, hbody₀]
    obtain ⟨version, hfree⟩ := h.node_free hin
    exact ⟨version, hlock.trans hfree⟩
  · intro a ha
    have hge : s.next ≤ a := Nat.le_trans hnext ha
    refine (hw.lock _ (fun hmem => ?_) fun x hx heq => ?_).trans (h.fresh_free hge)
    · exact absurd (hlt (.inl hmem)) (Nat.not_lt_of_le hge)
    · rw [Site.node.inj heq] at hge
      exact absurd (hlt (.inr hx)) (Nat.not_lt_of_le hge)
  · intro t q hq
    have hmem : q.addr ∈ o'.retired.map (·.2.addr) := List.mem_map_of_mem (f := (·.2.addr)) hq
    rw [hw.retired] at hmem
    rcases List.mem_append.mp hmem with hkilled | hold
    · exact (hw.kill _ hkilled).2
    · obtain ⟨r, hr, hrq⟩ := List.mem_map.mp hold
      have hobs : o.lock (.node q.addr) = .obsolete := hrq ▸ h.obsolete (t := r.1) (p := r.2) hr
      by_cases hkilled : q.addr ∈ killed
      · exact (hw.kill _ hkilled).2
      refine (hw.lock _ (fun hbumped => ?_) fun x hx heq => ?_).trans hobs
      · obtain ⟨version, hfree, -⟩ := hw.bump _ hbumped
        exact nomatch hobs.symm.trans hfree
      · exact hkilled (Site.node.inj heq ▸ hx)

/-- What the iterators of `olc_db` rely on. -/
theorem Mirrors.quiet (h : o.Mirrors s) : o.Quiet s where
  root_eq := by
    rw [← h.tree]
    rfl
  heap_eq := h.heap_eq
  root_free := h.root_free
  node_free := h.node_free

/-- An update of a mirrored `db` with the prefixes in `spared` changed behind the locks. -/
structure Carries (K : Set (List UInt8)) (path : NodePtr → List UInt8) (lost : NodeType → Nat)
    (o : OlcDb sizes) (s : Db dbSizes) (o' : OlcDb sizes) (s' : Db dbSizes) (spared : List Nat) : Prop where
  stores : o'.Stores s'
  writes : ∃ bumped killed, Writes o o' bumped killed spared
  inv : ∃ path', s'.Inv K path' lost ∧ ∀ q : NodePtr, q.addr < s.next → path' q = path q

end OlcDb

end Unodb
