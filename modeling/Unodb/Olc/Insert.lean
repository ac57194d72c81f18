import Unodb.Olc.Mirror

/-!
# An insertion into `olc_db` that no other thread disturbs

The first attempt of the insertion does what `insert_internal` of `db` does to the mirrored tree, or
leaves everything as it was if memory runs out.
-/

open Arrays

namespace Unodb

namespace OlcDb

/-- How an update of an `olc_db` may end: as `x` does on the mirrored `db`. -/
def UpdateOk (K : Set (List UInt8)) (path : NodePtr → List UInt8) (lost : NodeType → Nat)
    (o : OlcDb sizes) (s : Db dbSizes) (x : EStateM.Result Fault (Db dbSizes) Bool)
    (spared : List Nat) (r : Attempt)
    (o' : OlcDb sizes) : Prop :=
  ∃ s', match r with
    | .restart _ => False
    | .done false => x = .ok false s ∧ o' = o ∧ s' = s
    | .done true => x = .ok true s' ∧ Carries K path lost o s o' s' spared

/-- How an update may end with an exception: for lack of memory, or as `x` does.  Where `x` fails an
    assertion, nothing is said about the state. -/
def UpdateFails (P : Choice → Prop) (refusal : Option String) (o : OlcDb sizes) (s : Db dbSizes)
    (x : EStateM.Result Fault (Db dbSizes) Bool) (e : Fault) (o' : OlcDb sizes) : Prop :=
  (Restored o o' ∧ e = .badAlloc ∧ refusal = none ∧ ∃ c, P c ∧ c.badAlloc = true) ∨
    (o' = o ∧ x = .error e s ∧ e.isException) ∨
    (e = .assertion ∧ ∃ s', x = .error .assertion s')

variable {κ : Type} [LawfulArtKey κ] {K : Set (List UInt8)} {path : NodePtr → List UInt8}
  {lost : NodeType → Nat} {o : OlcDb sizes} {s : Db dbSizes} {sl : Slot} {slot : Radix.Slot NodePtr UInt8}
  {p : NodePtr} {n n' m' : INode NodePtr} {k : κ} {v : List UInt8} {depth : Nat} {rem : κ}
  {b b' : UInt8} {me : Nat} {parentCs : CriticalSection} {version : Nat} {P : Choice → Prop}

/-- A leaf that could not be linked is freed. -/
theorem resetLeaf_restores (hm : o.Mirrors s) {Q : Unit → OlcDb sizes → Prop}
    {E : Fault → OlcDb sizes → Prop}
    (hQ : ∀ o', Restored o o' → Q () o') :
    (resetLeaf (some ⟨s.next, .leaf⟩)).Ends P Q E
      (o.allocated (.leaf (ArtKey.getKeyView k) v)) := by
  have hleaf := hm.toStores.allocated (.leaf (ArtKey.getKeyView k) v)
  refine Prog.Ends.of_yields (yields_free hleaf (Db.withLeaf_deref_leaf s k v)) (hQ _ ?_)
  rw [← hm.next, show NodeType.leaf = (Body.leaf (ArtKey.getKeyView k) v).type from rfl,
    freed_allocated o _ (hm.fresh (Nat.le_of_eq hm.next.symm))]
  exact ⟨Nat.le_succ _, rfl⟩

/-! ## 1. The first leaf -/

theorem insertRoot_ends (hm : o.Mirrors s) (h : s.Inv K path lost) (hroot : s.tree.root = none)
    (hk : ArtKey.getKeyView k ∈ K) :
    (tryInsert me k v none).Ends P (UpdateOk K path lost o s (Db.insertInternal k v s) [])
      (UpdateFails P (Db.leafRefusal k v) o s (Db.insertInternal k v s)) o := by
  obtain ⟨version, hfree⟩ := hm.root_free
  rw [tryInsert]
  refine .step (yields_tryReadLock hfree) (.step yields_loadRoot ?_)
  have hroot' : o.mem.root = none := (congrArg Tree.root hm.tree).trans hroot
  rw [hroot']
  refine ends_makeDbLeafPtr ?_ ?_ fun hfits => ?_
  · intro what hwhat
    refine .inr (.inl ⟨rfl, ?_, rfl⟩)
    rw [Db.insertInternal, DbM.bind_get, if_pos hroot, DbM.bind_error (Db.makeDbLeafPtr_error hwhat s)]
  · intro c hc hbad hfits
    exact .inl ⟨.refl o, rfl, hfits, c, hc, hbad⟩
  have hvalid : (o.allocated (.leaf (ArtKey.getKeyView k) v)).Valid ⟨.root, version⟩ := hfree
  refine .step (yields_writeGuard hvalid me) (.step (yields_storeSlot _ _ _) ?_)
  refine .step (yields_unlock version me (by simp)) ?_
  obtain ⟨hinv, -⟩ := h.insertedRoot (v := v) hroot hk
  refine ⟨_, Db.insertInternal_root h hroot hfits, ?_, ⟨[.root], [], ?_⟩, _, hinv, ?_⟩
  · rw [hm.next]
    exact (((hm.toStores.allocated _).setLock _ _).stored (slotIn_of_slotAt .root) _).setLock _ _
  · constructor
    · exact Nat.le_succ _
    · simp [hfree]
    · simp
    · simp +contextual
    · simp
    · simp
    · simp [hroot']
    · intro a ha _ _ _
      simp [Tree.store, Tree.set_heap, Nat.ne_of_lt ha]
    · simp
    · simp
    · exact ((Tree.Ages.refl _).add (hm.unused 0) _).store .root _
  · intro q hq
    rw [Function.update_of_ne]
    rintro rfl
    exact Nat.lt_irrefl _ hq

/-! ## 2. An edge split by a new inner node -/

/-- `init` of the node above an inner node. -/
theorem yields_initPrefixSplit {newNode newLeaf : NodePtr} {key value : List UInt8} {len : Nat}
    {cut : KeyPrefix} (hnew : o.mem.deref newNode = some (.inode n))
    (hp : o.mem.deref p = some (.inode m')) (hleaf : o.mem.deref newLeaf = some (.leaf key value))
    (hn' : INode.initPrefixSplit n.keyPrefix m'.keyPrefix p len depth key newLeaf = .ok (n', cut)) :
    (initPrefixSplit newNode p len depth newLeaf).Yields o (.ok ())
      ((o.written p.addr { m' with keyPrefix := cut }).written newNode.addr n') := by
  refine yields_tryAct_ok fun _ => ?_
  rw [Tree.readInode_ok hnew, Tree.readInode_ok hp, Tree.readLeaf_ok hleaf]
  simp only [bind, Except.bind, hn']
  rfl

/-- A node and the one that points to it are in memory. -/
theorem Mirrors.known {body : Body} (hm : o.Mirrors s) (hslot : SlotIn s.tree sl)
    (hp : s.tree.heap p.addr = some body) {a : Nat} (ha : .node a = sl.site ∨ a = p.addr) :
    o.mem.heap a ≠ none := by
  rcases ha with ha | rfl
  · exact hm.slot_known hslot ha
  · rw [hm.heap_eq hp]
    simp

/-- Nodes at new addresses do not concern the paths of the others. -/
theorem path_update {q : NodePtr} (hq : q.addr < s.next) (type type' : NodeType) (u u' : List UInt8) :
    Function.update (Function.update path ⟨s.next, type⟩ u) ⟨s.next + 1, type'⟩ u' q = path q := by
  rw [Function.update_of_ne, Function.update_of_ne]
  · rintro rfl
    exact Nat.lt_irrefl _ hq
  · rintro rfl
    exact Nat.not_succ_lt_self hq

/-- `init` of a node that replaces a full one. -/
theorem yields_initLarger {newNode newLeaf : NodePtr} {key value : List UInt8}
    (hnew : o.mem.deref newNode = some (.inode m')) (hp : o.mem.deref p = some (.inode n))
    (hleaf : o.mem.deref newLeaf = some (.leaf key value)) (hbyte : key[depth]? = some b)
    (hn' : n.grow newLeaf b = .ok n') (hpre : n'.keyPrefix = m'.keyPrefix) :
    (initLarger newNode p newLeaf depth).Yields o (.ok ()) (o.written newNode.addr n') := by
  refine yields_tryAct_ok fun _ => ?_
  rw [Tree.readInode_ok hnew, Tree.readInode_ok hp, Tree.readLeaf_ok hleaf]
  simp only [bind, Except.bind, viewByte_eq_ok hbyte, hn', ← hpre]
  rfl

theorem blank_type {type : NodeType} (htype : type ≠ .leaf) (keyPrefix : KeyPrefix) :
    (INode.blank type keyPrefix).type = type := by
  cases type with
  | leaf => exact absurd rfl htype
  | i4 | i16 | i48 | i256 => rfl

section Loop

variable (hm : o.Mirrors s) (h : s.Inv K path lost) (hfree : Radix.PrefixFree K)
  (hk : ArtKey.getKeyView k ∈ K)
  (hat : s.tree.At path (ArtKey.getKeyView k) sl slot depth rem)
  (hread : s.tree.graph.read slot = some p) (hlock : parentCs.lock = sl.site)
  (hparent : o.Valid parentCs) (hnode : o.lock (.node p.addr) = .free version)
include hm h hfree hk hat hread hlock hparent hnode

omit hm hfree hk hlock hparent hnode in
/-- The lock of a node is not the one that protects the pointer to it. -/
theorem site_ne {body : Body} (hp : s.tree.deref p = some body) : sl.site ≠ .node p.addr := by
  intro heq
  have hne := h.tree.ne_slot hat.slotAt hread hp
  cases sl with
  | root => cases heq
  | child a i => exact hne i (by rw [Site.node.inj heq])

theorem splitLeaf_ends {k' v' : List UInt8} {fuel : Nat}
    (hp : s.tree.deref p = some (.leaf k' v')) (hne : ArtKey.getKeyView k ≠ k') :
    (splitLeaf me k v none p k' sl parentCs ⟨.node p.addr, version⟩ depth rem).Ends P
      (UpdateOk K path lost o s (Db.insertLoop k v (fuel + 1) sl depth rem s) [])
      (UpdateFails P (Db.leafRefusal k v) o s (Db.insertLoop k v (fuel + 1) sl depth rem s)) o := by
  have hload := (h.tree.load_eq hat.slotAt).trans hread
  have hsite := site_ne h hat hread hp
  have hslot := slotIn_of_slotAt hat.slotAt
  have hheap := (Tree.deref_eq_some_iff.mp hp).1
  rw [splitLeaf]
  refine ends_makeDbLeafPtr ?_ ?_ fun hfits => ?_
  · intro what hwhat
    exact .inr (.inl ⟨rfl, Db.insertLoop_splitLeaf_error hload hp hne hwhat, rfl⟩)
  · intro c hc hbad hfits
    exact .inl ⟨.refl o, rfl, hfits, c, hc, hbad⟩
  obtain ⟨kp, hkp⟩ : ∃ kp, KeyPrefix.make k' rem depth = .ok kp :=
    ⟨_, if_pos (hat.rests_of_leaf h.tree hfree hk hread hp hne).1⟩
  rw [hkp, hm.next]
  refine ends_makeDbInode ?_ ?_
  · intro c hc hbad
    exact resetLeaf_restores hm fun o' ho' => .inl ⟨ho', rfl, hfits, c, hc, hbad⟩
  -- Memory is there: the node is constructed and linked under the two locks.
  have hleaf := hm.toStores.allocated (.leaf (ArtKey.getKeyView k) v)
  have hnode' := hleaf.allocated (.inode (INode.blank .i4 kp))
  refine .step (yields_writeGuard ?_ me) (.step (yields_writeGuard ?_ me) ?_)
  · exact hparent
  · show (setLock _ _ _).lock _ = _
    rw [setLock_lock, hlock, if_neg hsite.symm]
    exact hnode
  have hblank : ((o.allocated (.leaf (ArtKey.getKeyView k) v)).allocated
      (.inode (INode.blank .i4 kp))).mem.deref ⟨o.next + 1, .i4⟩ =
      some (.inode (INode.blank .i4 kp)) := Tree.deref_set_self _ _ (.inode (INode.blank .i4 kp))
  by_cases hpart : (k'.drop depth).take 8 = ((ArtKey.getKeyView k).drop depth).take 8
  · -- The new node finds no byte to branch on.
    obtain ⟨hdepth, -, h12, h21⟩ := hat.rests_of_leaf h.tree hfree hk hread hp hne
    obtain ⟨kp', hkp', hn'⟩ := INode.initLeafSplit_stuck hat.rem_drop hdepth h12 h21 hpart p
      (⟨s.next, .leaf⟩ : NodePtr)
    obtain rfl : kp = kp' := Except.ok.inj (hkp.symm.trans hkp')
    exact .fail (yields_updateInode_error hblank hn')
      (.inr (.inr ⟨rfl, _, Db.insertLoop_splitLeaf_stuck hload h hp hne hfits hkp hn'⟩))
  obtain ⟨kp', n', hkp', hn', htype, hinv, -⟩ :=
    Db.exists_splitLeaf (v := v) h hfree hk hat hread hp hne hpart
  obtain rfl : kp = kp' := Except.ok.inj (hkp.symm.trans hkp')
  refine .step (yields_updateInode hblank hn') (.step (yields_storeSlot _ _ _) ?_)
  refine .step (yields_unlock version me (by simp)) ?_
  refine .step (yields_unlock parentCs.version me ?_) ?_
  · simp [hlock, hsite]
  refine .step (yields_act _ _) ?_
  refine ⟨s.splitLeaf sl n' k v, Db.insertLoop_splitLeaf hload h hat.slotAt hp hne hfits hkp hn' htype,
    ?_, ⟨[sl.site, .node p.addr], [], ?_⟩, _, hinv, ?_⟩
  · have hstores := ((hleaf.constructed (n := INode.blank .i4 kp) htype).stored
      ((hslot.set _ _).set _ _) ⟨o.next + 1, .i4⟩).grown .i4
    have hstate : s.splitLeaf sl n' k v = { (s.withLeaf k v).allocated (.inode n') with
        tree := ((s.withLeaf k v).allocated (.inode n')).tree.store sl ⟨s.next + 1, n'.type⟩
        stats := ((s.withLeaf k v).allocated (.inode n')).stats.grown .i4 } := by
      rw [Db.splitLeaf, ← h.splitLeaf_tree hat.slotAt]
      rfl
    rw [hstate, htype, ← hm.next]
    exact { hstores with }
  · constructor
    · exact Nat.le_add_right _ 2
    · have hsl : o.lock sl.site = .free parentCs.version := hlock ▸ hparent
      simp [hlock, hnode, hsite.symm, hsl]
    · simp
    · simp +contextual [hlock]
    · intro a ha
      exact hm.known hslot hheap (by simpa using ha)
    · intro hroot
      exact store_root (fun heq => hroot (heq ▸ List.mem_cons_self)) _
    · intro hroot q hq
      obtain rfl := hm.root_eq hat.slotAt hread (by simpa using hroot) hq
      simp
    · intro a ha hnot _ _
      simp only [List.mem_cons, List.not_mem_nil, or_false, not_or] at hnot
      show ((Tree.set _ _ _).store sl _).heap a = _
      rw [store_heap hnot.1]
      simp [Tree.set_heap, Nat.ne_of_lt ha, Nat.ne_of_lt (Nat.lt_succ_of_lt ha)]
    · simp
    · simp
    · exact ((((Tree.Ages.refl _).add (hm.unused 0) _).add (hm.unused 1) _).add (hm.unused 1) _).store
        _ _
  · exact fun q hq => path_update hq _ _ _ _

theorem splitPrefix_ends {fuel : Nat} (hp : s.tree.deref p = some (.inode n))
    (hlt : n.keyPrefix.getSharedLength (ArtKey.getU64 rem) < n.keyPrefix.length) :
    (splitPrefix me k v none p (n.keyPrefix.getSharedLength (ArtKey.getU64 rem)) sl parentCs
      ⟨.node p.addr, version⟩ depth).Ends P
      (UpdateOk K path lost o s (Db.insertLoop k v (fuel + 1) sl depth rem s) [])
      (UpdateFails P (Db.leafRefusal k v) o s (Db.insertLoop k v (fuel + 1) sl depth rem s)) o := by
  have hload := (h.tree.load_eq hat.slotAt).trans hread
  have hsite := site_ne h hat hread hp
  have hslot := slotIn_of_slotAt hat.slotAt
  have hheap := (Tree.deref_eq_some_iff.mp hp).1
  have hptype : p.type ≠ .leaf := by
    rw [← (Tree.deref_eq_some_iff.mp hp).2]
    exact n.type_ne_leaf
  rw [splitPrefix]
  refine ends_makeDbLeafPtr ?_ ?_ fun hfits => ?_
  -- The leaf is refused: nothing has changed.
  · intro what hwhat
    exact .inr (.inl ⟨rfl, Db.insertLoop_splitPrefix_error hload hp hptype hlt hwhat, rfl⟩)
  -- There is no memory for the leaf.
  · intro c hc hbad hfits
    exact .inl ⟨.refl o, rfl, hfits, c, hc, hbad⟩
  obtain ⟨kp, n', cut, hkp, hn', htype, hinv, -⟩ :=
    Db.exists_splitPrefix (v := v) h hfree hk hat hread hp hlt
  have hleaf := hm.toStores.allocated (.leaf (ArtKey.getKeyView k) v)
  refine .step (yields_read (hleaf.deref (h.withLeaf_deref hp)) ?_ _) ?_
  · simp only [List.mem_cons, List.not_mem_nil, or_false, forall_eq_or_imp, forall_eq]
    exact ⟨hparent, hnode⟩
  rw [hkp, hm.next]
  refine ends_makeDbInode ?_ ?_
  -- There is no memory for the new node: the leaf is given back.
  · intro c hc hbad
    exact resetLeaf_restores hm fun o' ho' => .inl ⟨ho', rfl, hfits, c, hc, hbad⟩
  refine .step (yields_writeGuard ?_ me) (.step (yields_writeGuard ?_ me) ?_)
  · exact hparent
  · show (setLock _ _ _).lock _ = _
    rw [setLock_lock, hlock, if_neg hsite.symm]
    exact hnode
  have hboth := hleaf.allocated (.inode (INode.blank .i4 kp))
  have hpz : p.addr ≠ s.next + 1 := Tree.heap_ne_of_deref hp h.heap_next_succ
  -- The heap of `db` follows: the source node is cut, the blank node filled.
  have hpold : ((s.withLeaf k v).allocated (.inode (INode.blank .i4 kp))).tree.deref p =
      some (.inode n) := by
    rw [Db.allocated_deref hpz, h.withLeaf_deref hp]
  have hnewleaf : ((s.withLeaf k v).allocated (.inode (INode.blank .i4 kp))).tree.deref
      ⟨s.next, .leaf⟩ = some (.leaf (ArtKey.getKeyView k) v) := by
    rw [Db.allocated_deref (Nat.ne_of_lt (Nat.lt_succ_self _)), Db.withLeaf_deref_leaf]
  have hblank : ((s.withLeaf k v).allocated (.inode (INode.blank .i4 kp))).tree.deref
      ⟨s.next + 1, .i4⟩ = some (.inode (INode.blank .i4 kp)) :=
    Tree.deref_set_self _ _ (.inode (INode.blank .i4 kp))
  have hnewBlank := hboth.deref hblank
  rw [← hm.next] at hnewBlank
  refine .step (yields_initPrefixSplit hnewBlank (hboth.deref hpold) (hboth.deref hnewleaf) hn')
    (.step (yields_storeSlot _ _ _) ?_)
  refine .step (yields_unlock version me (by simp)) ?_
  refine .step (yields_unlock parentCs.version me ?_) ?_
  · simp [hlock, hsite]
  refine .step (yields_act _ _) (.step (yields_act _ _) ?_)
  refine ⟨s.splitPrefix sl n' k v p { n with keyPrefix := cut },
    Db.insertLoop_splitPrefix hload hp hptype h hat.slotAt hread hlt hfits hkp hn' htype,
    ?_, ⟨[sl.site, .node p.addr], [], ?_⟩, _, hinv, ?_⟩
  -- The states agree.
  · have hold := (hleaf.allocated (.inode (INode.blank .i4 kp))).written
      (Tree.deref_eq_some_iff.mp hpold).1 (show INode.type { n with keyPrefix := cut } = n.type from rfl)
    have hnew := hold.written (a := o.next + 1) (n := INode.blank .i4 kp)
      (by
        show (Tree.set _ _ _).heap _ = _
        rw [hm.next, Tree.set_heap, if_neg hpz.symm]
        exact (Tree.deref_eq_some_iff.mp hblank).1) htype
    have hstores := ((hnew.stored ((((hslot.set _ _).set _ _).set _ _).set _ _)
      ⟨o.next + 1, .i4⟩).grown .i4).keyPrefixSplit
    have hstate : s.splitPrefix sl n' k v p { n with keyPrefix := cut } =
        { s.splitPrefix sl (INode.blank .i4 kp) k v p { n with keyPrefix := cut } with
          tree := (((((s.tree.set s.next (some (.leaf (ArtKey.getKeyView k) v))).set (s.next + 1)
            (some (.inode (INode.blank .i4 kp)))).set p.addr
            (some (.inode { n with keyPrefix := cut }))).set (o.next + 1)
            (some (.inode n'))).store sl ⟨o.next + 1, n'.type⟩) } := by
      rw [hm.next, Tree.set_set_comm _ hpz.symm, Tree.set_set,
        h.splitPrefix_tree hat.slotAt hread hp, Db.splitPrefix,
        Accounted.counted_inode dbSizes _ (n := INode.blank .i4 kp) htype]
      rfl
    rw [hstate, htype]
    exact { hstores with }
  -- What other threads may notice.
  · constructor
    · exact Nat.le_add_right _ 2
    · have hsl : o.lock sl.site = .free parentCs.version := hlock ▸ hparent
      simp [hlock, hnode, hsite.symm, hsl]
    · simp
    · simp +contextual [hlock]
    · intro a ha
      exact hm.known hslot hheap (by simpa using ha)
    · intro hroot
      exact store_root (fun heq => hroot (heq ▸ List.mem_cons_self)) _
    · intro hroot q hq
      obtain rfl := hm.root_eq hat.slotAt hread (by simpa using hroot) hq
      simp
    · intro a ha hnot _ _
      simp only [List.mem_cons, List.not_mem_nil, or_false, not_or] at hnot
      show ((Tree.set _ _ _).store sl _).heap a = _
      rw [store_heap hnot.1]
      have hap : a ≠ p.addr := fun heq => hnot.2 (congrArg Site.node heq)
      simp [Tree.set_heap, Nat.ne_of_lt ha, Nat.ne_of_lt (Nat.lt_succ_of_lt ha), hap]
    · simp
    · simp
    · have hcut : Body.Ages (p.addr ∈ []) (.inode n) (.inode { n with keyPrefix := cut }) :=
        ⟨rfl, .inr (INode.initPrefixSplit_length_le hn')⟩
      exact (((((Tree.Ages.refl _).add (hm.unused 0) _).add (hm.unused 1) _).write (hm.heap_eq hheap)
        hcut).add (hm.unused 1) _).store _ _
  · exact fun q hq => path_update hq _ _ _ _

/-! ## 3. A leaf added to an inner node -/

section Add

variable (hp : s.tree.deref p = some (.inode n)) (hb : n.child b = none)
  (hbyte : (ArtKey.getKeyView k)[depth + n.keyPrefix.length]? = some b)
  (hpath : path p ++ [b] <+: ArtKey.getKeyView k)
include hp hb hbyte hpath

omit hfree in
theorem growInode_ends {Q : AddResult → OlcDb sizes → Prop} {E : Fault → OlcDb sizes → Prop}
    (h256 : n.type ≠ .i256) (hn' : n.grow ⟨s.next, .leaf⟩ b = .ok n')
    (hrep : n'.Rep (Function.update n.child b (some ⟨s.next, .leaf⟩)))
    (hpre : n'.keyPrefix = n.keyPrefix) (htype : n'.type = n.type.larger)
    (hQ : ∀ o', Carries K path lost o s o' (s.grew sl p n n' k v) [] → Q .added o')
    (hE : ∀ c o', P c → c.badAlloc = true → Restored o o' → E .badAlloc o') :
    (growInode me p (depth + n.keyPrefix.length) ⟨.node p.addr, version⟩ sl parentCs
      ⟨s.next, .leaf⟩).Ends P Q E (o.allocated (.leaf (ArtKey.getKeyView k) v)) := by
  have hsite := site_ne h hat hread hp
  have hslot := slotIn_of_slotAt hat.slotAt
  obtain ⟨hheap, htag⟩ := Tree.deref_eq_some_iff.mp hp
  have hleaf := hm.toStores.allocated (.leaf (ArtKey.getKeyView k) v)
  have hlarger : p.type.larger ≠ .leaf := by
    cases p.type <;> simp [NodeType.larger]
  have hblank : (INode.blank p.type.larger n.keyPrefix).type = p.type.larger :=
    blank_type hlarger _
  have htype' : n'.type = (INode.blank p.type.larger n.keyPrefix).type := by
    rw [hblank, htype]
    exact congrArg NodeType.larger htag
  rw [growInode]
  refine .step (yields_read (hleaf.deref (h.withLeaf_deref hp)) ?_ _) ?_
  · simp only [List.mem_cons, List.not_mem_nil, or_false, forall_eq_or_imp, forall_eq]
    exact ⟨hparent, hnode⟩
  refine ends_makeDbInode ?_ ?_
  -- There is no memory for the larger node: the leaf is given back.
  · intro c hc hbad
    exact resetLeaf_restores hm fun o' ho' => hE c o' hc hbad ho'
  refine .step (yields_writeGuard ?_ me) (.step (yields_writeGuard ?_ me) ?_)
  · exact hparent
  · show (setLock _ _ _).lock _ = _
    rw [setLock_lock, hlock, if_neg hsite.symm]
    exact hnode
  refine .step (yields_unlockAndObsolete _ _) ?_
  have hboth := hleaf.allocated (.inode (INode.blank p.type.larger n.keyPrefix))
  have hpz : p.addr ≠ s.next + 1 := Tree.heap_ne_of_deref hp h.heap_next_succ
  -- The old node, the new leaf and the blank node, by their addresses.
  have hpold := hboth.deref ((Db.allocated_deref hpz _).trans (h.withLeaf_deref hp))
  have hnewLeaf := hboth.deref ((Db.allocated_deref (Nat.ne_of_lt (Nat.lt_succ_self _)) _).trans
    (Db.withLeaf_deref_leaf s k v))
  have hnewBlank := hboth.deref (Tree.deref_set_self _ _
    (.inode (INode.blank p.type.larger n.keyPrefix)))
  rw [show (s.allocated (.leaf (ArtKey.getKeyView k) v)).next = o.next + 1 from
    congrArg (· + 1) hm.next.symm] at hnewBlank
  refine .step (yields_initLarger hnewBlank hpold hnewLeaf hbyte hn' hpre) ?_
  have hconstructed := hleaf.constructed htype'
  have hpnew : ((s.withLeaf k v).allocated (.inode n')).tree.deref p = some (.inode n) :=
    (Db.allocated_deref hpz _).trans (h.withLeaf_deref hp)
  have hretired := hconstructed.nowRetired hpnew me
  refine .step (yields_onNextEpochDeallocate (hconstructed.withLock _) hpnew me)
    (.step (yields_storeSlot _ _ _) ?_)
  refine .step (yields_unlock parentCs.version me ?_) (.step (yields_act _ _) ?_)
  · simp [hlock, hsite]
  obtain ⟨hinv, -⟩ := h.grew (v := v) hp hat.slotAt hread hb hk hpath h256 hrep hpre htype
  refine hQ _ ⟨?_, ⟨[sl.site], [p.addr], ?_⟩, _, hinv, fun q hq => path_update hq _ _ _ _⟩
  -- The states agree.
  · have hstores := (hretired.stored (((hslot.set _ _).set _ _).set_none hsite)
      ⟨o.next + 1, (INode.blank p.type.larger n.keyPrefix).type⟩).grown
      (INode.blank p.type.larger n.keyPrefix).type
    have hstate : s.grew sl p n n' k v = { s.grew sl p n n' k v with
        tree := ((((s.tree.set s.next (some (.leaf (ArtKey.getKeyView k) v))).set (s.next + 1)
          (some (.inode n'))).set p.addr none).store sl ⟨o.next + 1, n'.type⟩) } := by
      rw [hm.next, h.grew_tree hp hat.slotAt hread]
      rfl
    rw [hstate]
    rw [← htype'] at hstores ⊢
    exact { hstores with }
  -- What other threads may notice.
  · constructor
    · exact Nat.le_add_right _ 2
    · have hsl : o.lock sl.site = .free parentCs.version := hlock ▸ hparent
      simp [hlock, hsl]
    · simp [hnode, hlock, hsite.symm]
    · simp +contextual [hlock]
    · intro a ha
      exact hm.known hslot hheap (by simpa using ha)
    · intro hroot
      exact store_root (fun heq => hroot (heq ▸ List.mem_cons_self)) _
    · intro hroot q hq
      obtain rfl := hm.root_eq hat.slotAt hread (by simpa using hroot) hq
      simp
    · intro a ha hnot _ _
      simp only [List.mem_cons, List.not_mem_nil, or_false] at hnot
      show ((Tree.set _ _ _).store sl _).heap a = _
      rw [store_heap hnot]
      simp [Tree.set_heap, Nat.ne_of_lt ha, Nat.ne_of_lt (Nat.lt_succ_of_lt ha)]
    · simp
    · simp
    · exact ((((Tree.Ages.refl _).add (hm.unused 0) _).add (hm.unused 1) _).add (hm.unused 1) _).store
        _ _

omit hfree hlock in
theorem addToNonfull_ends {Q : AddResult → OlcDb sizes → Prop} {E : Fault → OlcDb sizes → Prop}
    (hlock : parentCs.lock = sl.site)
    (hn' : n.addToNonfull ⟨s.next, .leaf⟩ b n.childrenCount = .ok n')
    (hrep : n'.Rep (Function.update n.child b (some ⟨s.next, .leaf⟩)))
    (hpre : n'.keyPrefix = n.keyPrefix) (htype : n'.type = n.type)
    (hQ : ∀ o', Carries K path lost o s o' (s.addedLeaf p n' k v) [] → Q .added o') :
    (addToNonfull me p k (depth + n.keyPrefix.length) ⟨.node p.addr, version⟩ parentCs
      ⟨s.next, .leaf⟩ n.childrenCount).Ends P Q E
      (o.allocated (.leaf (ArtKey.getKeyView k) v)) := by
  have hsite := site_ne h hat hread hp
  obtain ⟨hheap, -⟩ := Tree.deref_eq_some_iff.mp hp
  have hleaf := hm.toStores.allocated (.leaf (ArtKey.getKeyView k) v)
  have hpold := h.withLeaf_deref (k := k) (v := v) hp
  rw [addToNonfull]
  refine .step (yields_writeGuard ?_ me) (.step (yields_check ?_) ?_)
  · exact hnode
  · show (setLock _ _ _).lock _ = _
    rw [setLock_lock, hlock, if_neg hsite, ← hlock]
    exact hparent
  have hadd : (viewByte (ArtKey.getKeyView k) (depth + n.keyPrefix.length) >>= fun b =>
      n.addToNonfull ⟨s.next, .leaf⟩ b n.childrenCount) = .ok n' := by
    rw [viewByte_eq_ok hbyte]
    exact hn'
  refine .step (yields_updateInode (hleaf.deref hpold) hadd) ?_
  refine .step (yields_unlock version me (by simp)) ?_
  obtain ⟨hinv, -⟩ := h.addedLeaf (v := v) hp hb hk hpath hrep hpre htype
  refine hQ _ ⟨?_, ⟨[.node p.addr], [], ?_⟩, _, hinv, ?_⟩
  · have hstores := hleaf.written (Tree.deref_eq_some_iff.mp hpold).1 htype
    have hpx : p.addr ≠ s.next := Tree.heap_ne_of_deref hp h.heap_next
    have hstate : s.addedLeaf p n' k v = { s.addedLeaf p n' k v with
        tree := (s.tree.set s.next (some (.leaf (ArtKey.getKeyView k) v))).set p.addr
          (some (.inode n')) } := rfl
    rw [hstate]
    exact { hstores with }
  · constructor
    · exact Nat.le_succ _
    · simp [hnode]
    · simp
    · simp +contextual
    · intro a ha
      have hap : a = p.addr := by simpa using ha
      rw [hap, hm.heap_eq hheap]
      simp
    · intro _
      rfl
    · simp
    · intro a ha hnot _ _
      have hap : a ≠ p.addr := by simpa using hnot
      show (Tree.set _ _ _).heap a = _
      simp [Tree.set_heap, Nat.ne_of_lt ha, hap]
    · simp
    · simp
    · exact ((Tree.Ages.refl _).add (hm.unused 0) _).write (hm.heap_eq hheap)
        (.of_keyPrefix_eq htype hpre)
  · intro q hq
    rw [Function.update_of_ne]
    rintro rfl
    exact Nat.lt_irrefl _ hq

end Add

/-! ## 4. The operation -/

section Rounds

variable {fuel : Nat} (hp : s.tree.deref p = some (.inode n)) {rem1 : κ}
  (hshared : n.keyPrefix.getSharedLength (ArtKey.getU64 rem) = n.keyPrefix.length)
  (hrem1 : ArtKey.shiftRight rem n.keyPrefix.length = .ok rem1)
  (hb : ArtKey.byteAt rem1 0 = .ok b) (hpath : path p ++ [b] <+: ArtKey.getKeyView k)
  (hbyte : (ArtKey.getKeyView k)[depth + n.keyPrefix.length]? = some b)
  (hfind : n.findChild b = none)
include hp hshared hrem1 hb hpath hbyte hfind

omit hfree in
theorem addOrChooseSubtree_ends :
    (addOrChooseSubtree me p b k v (depth + n.keyPrefix.length) ⟨.node p.addr, version⟩ sl parentCs
      none).Ends P
      (fun r o' => r = .added ∧ UpdateOk K path lost o s
        (Db.insertLoop k v (fuel + 1) sl depth rem s) [] (.done true) o')
      (UpdateFails P (Db.leafRefusal k v) o s (Db.insertLoop k v (fuel + 1) sl depth rem s)) o := by
  have hload := (h.tree.load_eq hat.slotAt).trans hread
  obtain ⟨hheap, htag⟩ := Tree.deref_eq_some_iff.mp hp
  have htag : n.type = p.type := htag
  have hptype : p.type ≠ .leaf := htag ▸ n.type_ne_leaf
  have hwf : n.WF := h.tree.wf hheap
  have hchild := (hwf.findChild_eq_none_iff b).mp hfind
  have hcss : ∀ o' : OlcDb sizes, o'.lock = o.lock →
      ∀ cs ∈ [(⟨.node p.addr, version⟩ : CriticalSection)], o'.Valid cs := by
    intro o' ho' cs hcs
    rw [List.mem_singleton.mp hcs, Valid, ho']
    exact hnode
  rw [addOrChooseSubtree]
  refine .step (yields_read (hm.deref hp) (hcss o rfl) _) ?_
  rw [hfind]
  refine ends_makeDbLeafPtr ?_ ?_ fun hfits => ?_
  · intro what hwhat
    exact .inr (.inl ⟨rfl,
      Db.insertLoop_add_error hload hp hptype hshared hrem1 hb hfind hwhat, rfl⟩)
  · intro c hc hbad hfits
    exact .inl ⟨.refl o, rfl, hfits, c, hc, hbad⟩
  have hleaf := hm.toStores.allocated (.leaf (ArtKey.getKeyView k) v)
  refine .step (yields_read (hleaf.deref (h.withLeaf_deref hp)) (hcss _ rfl) _) ?_
  rw [hm.next]
  by_cases hfull : p.type ≠ .i256 ∧ n.childrenCount = p.type.capacity
  · rw [if_pos hfull]
    have h256 : n.type ≠ .i256 := htag ▸ hfull.1
    have hdeg := hwf.degree_of_full h256 (htag ▸ hfull.2)
    obtain ⟨n', hn', hrep, hpre, htype⟩ := hwf.grow hchild hdeg h256 (⟨s.next, .leaf⟩ : NodePtr)
    have hadd := Db.addOrChooseSubtree_grow (v := v) h hp hfind hfits hbyte hat.slotAt hread hfull
      hn' htype h256
    refine growInode_ends hm h hk hat hread hlock hparent hnode hp hchild hbyte hpath h256 hn' hrep
      hpre htype (fun o' hcarries => ?_) fun c o' hc hbad ho' => ?_
    · exact ⟨rfl, _, Db.insertLoop_added hload hp hptype hshared hrem1 hb hadd, hcarries⟩
    · exact .inl ⟨ho', rfl, hfits, c, hc, hbad⟩
  · rw [if_neg hfull]
    have hdeg := hwf.degree_of_room hchild (htag ▸ hfull)
    obtain ⟨n', hn', hrep, hpre, htype⟩ := hwf.addToNonfull hchild hdeg (⟨s.next, .leaf⟩ : NodePtr)
    have hadd := Db.addOrChooseSubtree_add (v := v) h hp hfind hfits hbyte hfull hn' sl
    refine addToNonfull_ends hm h hk hat hread hparent hnode hp hchild hbyte hpath hlock hn' hrep
      hpre htype fun o' hcarries => ?_
    exact ⟨rfl, _, Db.insertLoop_added hload hp hptype hshared hrem1 hb hadd, hcarries⟩

end Rounds

end Loop

/-- The loop of an insertion, from any place on the way of its key. -/
theorem insertLoop_ends (hm : o.Mirrors s) (h : s.Inv K path lost) (hfree : Radix.PrefixFree K)
    (hk : ArtKey.getKeyView k ∈ K) {fuel : Nat}
    (hat : s.tree.At path (ArtKey.getKeyView k) sl slot depth rem)
    (hread : s.tree.graph.read slot = some p) (hlock : parentCs.lock = sl.site)
    (hparent : o.Valid parentCs) (hfuel : (ArtKey.getKeyView k).length < fuel + depth) :
    (insertLoop me k v none fuel p sl parentCs depth rem).Ends P
      (UpdateOk K path lost o s (Db.insertLoop k v fuel sl depth rem s) [])
      (UpdateFails P (Db.leafRefusal k v) o s (Db.insertLoop k v fuel sl depth rem s)) o := by
  -- The induction is on the fuel, which is more than what is left of the key.
  induction fuel generalizing sl slot depth rem p parentCs with
  | zero =>
    have := hat.depth_le
    omega
  | succ fuel ih =>
    have hload := (h.tree.load_eq hat.slotAt).trans hread
    obtain ⟨version, hnode⟩ := lock_free h.tree hm.quiet hread
    have hvalid : o.Valid ⟨.node p.addr, version⟩ := hnode
    have hcss : ∀ cs ∈ [parentCs, ⟨.node p.addr, version⟩], o.Valid cs := by
      simp only [List.mem_cons, List.not_mem_nil, or_false, forall_eq_or_imp, forall_eq]
      exact ⟨hparent, hvalid⟩
    rw [insertLoop]
    refine .step (yields_tryReadLock hnode) ?_
    dsimp only
    by_cases htype : p.type = .leaf
    · obtain ⟨k', v', hp, -⟩ := h.tree.leaf_of_tag hread htype
      rw [if_pos htype]
      refine .step (yields_readKey hm.quiet hp) ?_
      by_cases hne : ArtKey.getKeyView k = k'
      · subst hne
        -- The key is there.
        rw [if_pos ((ArtKey.cmp_eq_zero_iff _ _).mpr rfl)]
        refine .step (yields_check hparent) (.step (yields_check hvalid) ?_)
        exact ⟨s, Db.insertLoop_exists hload hp, rfl, rfl⟩
      · rw [if_neg (mt (ArtKey.cmp_eq_zero_iff _ _).mp hne)]
        exact splitLeaf_ends hm h hfree hk hat hread hlock hparent hnode hp hne
    · obtain ⟨n, hp, hwf, -⟩ := h.tree.inode_of_tag hread htype
      rw [if_neg htype]
      refine .step (yields_read (hm.deref hp) hcss _) (.step (yields_read (hm.deref hp) hcss _) ?_)
      by_cases hlt : n.keyPrefix.getSharedLength (ArtKey.getU64 rem) < n.keyPrefix.length
      -- The key leaves the prefix.
      · rw [if_pos hlt]
        exact splitPrefix_ends hm h hfree hk hat hread hlock hparent hnode hp hlt
      obtain ⟨hshared, rem1, b, rem2, hrem1, hb, hrem2, hpath, hbyte, hlen, hdrop⟩ :=
        hat.pass h.tree hread hp (h.tree.stays hfree hk) hlt
      rw [if_neg hlt, assertThat_pos hshared, hrem1]
      show Prog.Ends _ _ _ (Prog.lift (ArtKey.byteAt rem1 0) >>= _) _
      rw [hb]
      show Prog.Ends _ _ _ (addOrChooseSubtree me p b k v _ _ _ _ none >>= _) _
      cases hfind : n.findChild b with
      -- No child at the byte: the leaf is added here.
      | none =>
        refine .bind ((addOrChooseSubtree_ends hm h hk hat hread hlock hparent hnode hp hshared hrem1
          hb hpath hbyte hfind).mono ?_ fun _ _ he => he)
        rintro r o' ⟨rfl, hok⟩
        exact hok
      | some r =>
        obtain ⟨ci, i⟩ := r
        obtain ⟨q, hq, hslot, -⟩ := hwf.findChild_eq_some hfind
        have hread' : s.tree.graph.read (.child p b) = some q := by
          rw [Tree.graph_read_child hp, hq]
        -- The child at the byte, with which the loop goes on.
        have hchoose : (addOrChooseSubtree me p b k v (depth + n.keyPrefix.length)
            ⟨.node p.addr, version⟩ sl parentCs none).Yields o (.ok (.child (.child p.addr i))) o := by
          rw [addOrChooseSubtree]
          refine (yields_reading hm.quiet hvalid hp _).bind ?_
          rw [hfind]
          exact Prog.Yields.ret _ _
        refine .step hchoose (.step (yields_check hparent) ?_)
        refine .step (yields_loadChild hm.quiet hvalid hp i) ?_
        rw [hrem2, hslot]
        refine .step (Prog.Yields.lift (.ok rem2) o) (.step (yields_check hvalid) ?_)
        rw [Db.insertLoop_child hload hp htype hshared hrem1 hb hfind hrem2]
        refine .step (Prog.Yields.lift (.ok q) o) ?_
        exact ih (Tree.At.child hp hfind hpath hlen hdrop) hread' rfl hvalid (by omega)

/-- An insertion attempt of a new thread, on a mirrored `db`. -/
theorem tryInsert_ends (hm : o.Mirrors s) (h : s.Inv K path lost) (hfree : Radix.PrefixFree K)
    (hk : ArtKey.getKeyView k ∈ K) :
    (tryInsert me k v none).Ends P (UpdateOk K path lost o s (Db.insertInternal k v s) [])
      (UpdateFails P (Db.leafRefusal k v) o s (Db.insertInternal k v s)) o := by
  cases hroot : s.tree.root with
  | none => exact insertRoot_ends hm h hroot hk
  | some root =>
    obtain ⟨version, hroot_free⟩ := hm.root_free
    have hvalid : o.Valid ⟨.root, version⟩ := hroot_free
    rw [tryInsert]
    refine .step (yields_tryReadLock hroot_free) (.step yields_loadRoot ?_)
    rw [hm.quiet.root_eq, hroot]
    refine .step (yields_check hvalid) ?_
    rw [Db.insertInternal, DbM.bind_get, if_neg (by rw [hroot]; simp)]
    refine insertLoop_ends hm h hfree hk (Tree.At.root s.tree path k) (p := root) hroot rfl
      hvalid ?_
    rw [LawfulArtKey.size_eq]
    omega

end OlcDb

end Unodb
