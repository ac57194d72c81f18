import Unodb.Olc.Remove
import Unodb.Db.Map

/-!
# The map interface of an `olc_db` that one thread uses

`get_internal`, `insert_internal`, `remove_internal`, `empty` and `clear`.  With no other thread at
work their first attempts succeed, and they return what those of `db` return.
-/

namespace Unodb

namespace OlcDb

/-! ## 1. Retry loops -/

section Code

variable {κ E : Type} [ArtKey κ]

/-- `get_internal`. -/
def getInternal (k : κ) : Nat → OlcM sizes (Option (List UInt8))
  | 0 => Prog.throw .outOfFuel
  | rounds + 1 => do
    match ← tryGet k with
    | some result => return result
    | none => getInternal k rounds

/-- `insert_internal`. -/
def insertInternal (me : Nat) (insertKey : κ) (v : List UInt8) : Nat → Option NodePtr → OlcM sizes Bool
  | 0, _ => Prog.throw .outOfFuel
  | rounds + 1, cachedLeaf => do
    match ← tryInsert me insertKey v cachedLeaf with
    | .done result => return result
    | .restart cachedLeaf => insertInternal me insertKey v rounds cachedLeaf

/-- `remove_internal`. -/
def removeInternal (me : Nat) (removeKey : κ) : Nat → OlcM sizes Bool
  | 0 => Prog.throw .outOfFuel
  | rounds + 1 => do
    match ← tryRemove me removeKey with
    | .done result => return result
    | .restart _ => removeInternal me removeKey rounds

/-- `art_policy::delete_subtree`; the node itself is freed on scope exit, after its children. -/
def deleteSubtree : Nat → NodePtr → OlcM sizes Unit
  | 0, _ => Prog.throw .outOfFuel
  | fuel + 1, node => do
    if node.type ≠ .leaf then
      let inode ← reading [] node id
      Prog.lift (assertThat (inode.subtrees.length % 256 = inode.childrenCount))
      inode.subtrees.forM (deleteSubtree fuel)
    free node

/-- `delete_root_subtree`.  No path is longer than the number of nodes. -/
def deleteRootSubtree : OlcM sizes Unit := do
  let s ← act fun s => (s, s)
  s.mem.root.forM (deleteSubtree s.next)
  let s ← act fun s => (s, s)
  Prog.lift (assertThat (s.stats.nodeCounts .leaf = 0))

/-- `clear`, which only the last thread may call. -/
def clear : OlcM sizes Unit := do
  deleteRootSubtree
  act fun s => ((), { s with mem.root := none, stats := s.stats.cleared })

/-- `insert`, `remove`, `get`, `empty` and `clear`, with a bound on the attempts. -/
def call (me rounds : Nat) (encode : E → κ) : Call E → OlcM sizes Output
  | .insert k v => do return .bool (← insertInternal me (encode k) v rounds none)
  | .remove k => do return .bool (← removeInternal me (encode k) rounds)
  | .get k => do return .value (← getInternal (encode k) rounds)
  | .empty => do return .bool (← loadRoot).isNone
  | .clear => do
    clear
    return .unit

end Code

variable {κ E : Type} [LawfulArtKey κ] {K : Set (List UInt8)} {path : NodePtr → List UInt8}
  {lost : NodeType → Nat} {o o' : OlcDb sizes} {s s' : Db dbSizes} {sl : Slot}
  {slot : Radix.Slot NodePtr UInt8} {p : NodePtr} {k : κ} {depth : Nat} {rem : κ}

/-! ## 2. Lookup -/

theorem getLoop_simulates (h : s.tree.Inv K path) (hq : o.Quiet s)
    (hstays : s.tree.Stays path (ArtKey.getKeyView k)) {fuel : Nat} {parentCs : CriticalSection}
    (hat : s.tree.At path (ArtKey.getKeyView k) sl slot depth rem)
    (hread : s.tree.graph.read slot = some p) (hparent : o.Valid parentCs) :
    Simulates o (fun r r' => r' = some r) (Db.getLoop s.tree k fuel p rem)
      (getLoop k fuel p parentCs rem) := by
  induction fuel generalizing sl slot depth rem p parentCs with
  | zero => exact .throw
  | succ fuel ih =>
    obtain ⟨version, hlock⟩ := lock_free h hq hread
    have hnode : o.Valid ⟨.node p.addr, version⟩ := hlock
    rw [Db.getLoop, getLoop]
    refine .step (yields_tryReadLock hlock) (.check hparent ?_)
    by_cases htype : p.type = .leaf
    · obtain ⟨k', v', hp, -⟩ := h.leaf_of_tag hread htype
      rw [if_pos htype, if_pos htype, Tree.readLeaf_ok hp]
      exact .step (yields_readLeaf hq hp) (.check hnode (.ret rfl))
    · obtain ⟨n, hp, hwf, -⟩ := h.inode_of_tag hread htype
      rw [if_neg htype, if_neg htype, Tree.readInode_ok hp]
      refine .step (yields_reading hq hnode hp _) (.step (yields_reading hq hnode hp _) ?_)
      show Simulates o _ (if n.keyPrefix.getSharedLength (ArtKey.getU64 rem) < n.keyPrefix.length
        then _ else _) _
      by_cases hlt : n.keyPrefix.getSharedLength (ArtKey.getU64 rem) < n.keyPrefix.length
      · rw [if_pos hlt, if_pos hlt]
        exact .check hnode (.ret rfl)
      obtain ⟨hshared, rem1, b, rem2, hrem1, hb, hrem2, hpath, hbyte, hlen, hdrop⟩ :=
        hat.pass h hread hp hstays hlt
      rw [if_neg hlt, if_neg hlt, assertThat_pos hshared, hrem1]
      show Simulates o _ (ArtKey.byteAt rem1 0 >>= _) (Prog.lift (ArtKey.byteAt rem1 0) >>= _)
      refine .lift fun b' hb' => .step (yields_reading hq hnode hp _) ?_
      obtain rfl : b = b' := Except.ok.inj (hb.symm.trans hb')
      cases hfind : n.findChild b with
      | none => exact .check hnode (.ret rfl)
      | some r =>
        obtain ⟨ci, i⟩ := r
        obtain ⟨q, hchild, hslot, -⟩ := hwf.findChild_eq_some hfind
        have hreadq : s.tree.graph.read (.child p b) = some q := by
          rw [Tree.graph_read_child hp, hchild]
        have hload : s.tree.load (.child p.addr i) = some q := by
          rw [h.load_eq (.child hp hfind), hreadq]
        refine .step (yields_loadChild hq hnode hp i) ?_
        simp only [Tree.readSlot_ok hload, hslot, hrem2]
        exact .check hnode (ih (Tree.At.child hp hfind hpath hlen hdrop) hreadq hnode)

/-- A lookup succeeds at its first attempt. -/
theorem getInternal_yields (h : s.tree.Inv K path) (hq : o.Quiet s)
    (hstays : s.tree.Stays path (ArtKey.getKeyView k)) {r : Option (List UInt8)}
    (hr : Db.getInternal s k = .ok r) (rounds : Nat) :
    (getInternal k (rounds + 1)).Yields o (.ok r) o := by
  obtain ⟨version, hlock⟩ := hq.root_free
  have hroot : o.Valid ⟨.root, version⟩ := hlock
  have htry : (tryGet k).Yields o (.ok (some r)) o := by
    rw [tryGet]
    refine (yields_tryReadLock hlock).bind (yields_loadRoot.bind ?_)
    rw [hq.root_eq]
    rw [Db.getInternal] at hr
    cases hread : s.tree.root with
    | none =>
      rw [hread] at hr
      cases hr
      exact (yields_check hroot).bind (Prog.Yields.ret _ _)
    | some root =>
      rw [hread] at hr
      refine (yields_check hroot).bind ?_
      have hloop : Simulates o (fun r r' => r' = some r)
          (Db.getLoop s.tree k (ArtKey.size k + 1) root k)
          (getLoop k (ArtKey.size k + 1) root ⟨.root, version⟩ k) :=
        getLoop_simulates h hq hstays (Tree.At.root s.tree path k) hread hroot
      obtain ⟨r', hyields, ⟨a, b, ha, rfl, rfl⟩ | ⟨e, e', he, -⟩⟩ := hloop
      · obtain rfl := Except.ok.inj (ha.symm.trans hr)
        exact hyields
      · cases he.symm.trans hr
  rw [getInternal]
  exact htry.bind (Prog.Yields.ret _ _)

/-! ## 3. Clearing -/

/-- What `delete_subtree` does not touch. -/
structure SameFrame (o o' : OlcDb sizes) : Prop where
  root : o'.mem.root = o.mem.root
  lock : o'.lock = o.lock
  retired : o'.retired = o.retired

theorem SameFrame.trans {o'' : OlcDb sizes} (h : SameFrame o o') (h' : SameFrame o' o'') :
    SameFrame o o'' :=
  ⟨h'.root.trans h.root, h'.lock.trans h.lock, h'.retired.trans h.retired⟩

theorem yields_free_of_ok (ho : o.Stores s) (hfree : Db.free p s = .ok () s') :
    ∃ o', (free p).Yields o (.ok ()) o' ∧ o'.Stores s' ∧ SameFrame o o' := by
  rw [Db.free, DbM.bind_get] at hfree
  cases hp : s.tree.deref p with
  | none =>
    rw [hp] at hfree
    cases hfree
  | some body =>
    simp only [hp] at hfree
    obtain ⟨st, hst, hset⟩ := DbM.of_lift_ok hfree
    obtain rfl := Accounted.eq_of_decrement hst
    obtain rfl : s' = s.freed p body := (EStateM.Result.ok.inj hset).2.symm
    exact ⟨_, yields_free ho hp, ho.freed hp, rfl, rfl, rfl⟩

/-- The loop over the children of a node. -/
theorem deleteSubtrees_yields {fuel : Nat}
    (ih : ∀ {p} {o : OlcDb sizes} {s s' : Db dbSizes}, o.Stores s → Db.deleteSubtree fuel p s = .ok () s' →
      ∃ o', (deleteSubtree fuel p).Yields o (.ok ()) o' ∧ o'.Stores s' ∧ SameFrame o o')
    (children : List NodePtr) (ho : o.Stores s)
    (hdelete : children.forM (Db.deleteSubtree fuel) s = .ok () s') :
    ∃ o', (children.forM (deleteSubtree fuel)).Yields o (.ok ()) o' ∧ o'.Stores s' ∧
      SameFrame o o' := by
  induction children generalizing o s with
  | nil =>
    cases hdelete
    exact ⟨o, Prog.Yields.ret _ _, ho, rfl, rfl, rfl⟩
  | cons c children ihl =>
    obtain ⟨_, s₁, hc, hrest⟩ := DbM.of_bind_ok hdelete
    obtain ⟨o₁, hyields, ho₁, hframe⟩ := ih ho hc
    obtain ⟨o₂, hyields', ho₂, hframe'⟩ := ihl ho₁ hrest
    exact ⟨o₂, hyields.bind hyields', ho₂, hframe.trans hframe'⟩

theorem deleteSubtree_yields {fuel : Nat} (ho : o.Stores s)
    (hdelete : Db.deleteSubtree fuel p s = .ok () s') :
    ∃ o', (deleteSubtree fuel p).Yields o (.ok ()) o' ∧ o'.Stores s' ∧ SameFrame o o' := by
  induction fuel generalizing p o s s' with
  | zero => cases hdelete
  | succ fuel ih =>
    rw [Db.deleteSubtree] at hdelete
    rw [deleteSubtree]
    by_cases htype : p.type = .leaf
    · rw [if_neg (not_not.mpr htype)] at hdelete ⊢
      exact yields_free_of_ok ho hdelete
    · rw [if_pos htype] at hdelete ⊢
      obtain ⟨n, s₁, hn, hrest⟩ := DbM.of_bind_ok hdelete
      obtain ⟨hp, rfl⟩ := Db.of_readInode_ok hn
      obtain ⟨_, hcount, hrest⟩ := DbM.of_lift_ok hrest
      obtain ⟨_, s₂, hchildren, hfree⟩ := DbM.of_bind_ok hrest
      obtain ⟨o₁, hyields, ho₁, hframe⟩ := deleteSubtrees_yields ih n.subtrees ho hchildren
      obtain ⟨o₂, hyields', ho₂, hframe'⟩ := yields_free_of_ok ho₁ hfree
      have hread : (reading [] p id).Yields o (.ok n) o :=
        yields_read (ho.deref hp) (fun _ hcs => absurd hcs List.not_mem_nil) id
      refine ⟨o₂, hread.bind ?_, ho₂, hframe.trans hframe'⟩
      rw [hcount]
      exact (Prog.Yields.lift (.ok _) o).bind (hyields.bind hyields')

theorem clear_yields (hm : o.Mirrors s) (h : s.Inv K path lost) (hclear : Db.clear s = .ok () s') :
    ∃ o', clear.Yields o (.ok ()) o' ∧ o'.Mirrors s' := by
  obtain ⟨s₁, hdelete, hheap, D, hfreed⟩ := h.deleteRoot_spec
  obtain ⟨o₁, hyields, ho₁, hframe⟩ : ∃ o₁, (o.mem.root.forM (deleteSubtree o.next)).Yields o
      (.ok ()) o₁ ∧ o₁.Stores s₁ ∧ SameFrame o o₁ := by
    rw [hm.quiet.root_eq, hm.next]
    cases hroot : s.tree.root with
    | none =>
      rw [hroot] at hdelete
      cases hdelete
      exact ⟨o, Prog.Yields.ret _ _, hm.toStores, rfl, rfl, rfl⟩
    | some root =>
      rw [hroot] at hdelete
      exact deleteSubtree_yields hm.toStores hdelete
  have htotal : ∀ weight, s₁.tree.total weight s₁.next = 0 := by
    intro weight
    simp [Tree.total, hheap]
  have hleaf : s₁.stats.nodeCounts .leaf = 0 := by
    rw [hfreed.accounted.counts, htotal]
  have hdeleteRoot : Db.deleteRootSubtree s = .ok () s₁ := by
    rw [Db.deleteRootSubtree, DbM.bind_get, DbM.bind_ok hdelete, DbM.bind_get]
    exact DbM.lift_ok (assertThat_pos hleaf) s₁
  have hs' : s' = { s₁ with tree.root := none, stats := s₁.stats.cleared } := by
    rw [Db.clear, DbM.bind_ok hdeleteRoot] at hclear
    exact (EStateM.Result.ok.inj hclear).2.symm
  subst hs'
  have hleaf' : o₁.stats.nodeCounts .leaf = 0 := by rw [ho₁.nodeCounts, hleaf]
  have hdeleted : deleteRootSubtree.Yields o (.ok ()) o₁ := by
    rw [deleteRootSubtree]
    refine (yields_act _ _).bind (hyields.bind ((yields_act _ _).bind ?_))
    rw [assertThat_pos hleaf']
    exact Prog.Yields.lift (.ok ()) o₁
  refine ⟨{ o₁ with mem.root := none, stats := o₁.stats.cleared }, hdeleted.bind (yields_act _ _), ?_⟩
  constructor
  · refine { ho₁.clearedRoot with nodeCounts := ?_, accounted := ?_ }
    · simp only [Stats.cleared, ho₁.nodeCounts]
    · exact Db.Accounted.of_empty hheap (fun type => by simp [Stats.cleared, hleaf']) rfl
  · rw [hframe.lock]
    exact hm.root_free
  · intro a body ha
    cases (hheap a).symm.trans ha
  · intro a ha
    rw [hframe.lock]
    exact hm.fresh_free (hfreed.next_eq ▸ ha)
  · intro t q hq
    rw [hframe.lock]
    exact hm.obsolete (hframe.retired ▸ hq)

/-- An exception that leaves no trace but in the addresses. -/
theorem Mirrors.restored (h : o.Mirrors s) (ho' : Restored o o') :
    o'.Mirrors ({ s with next := o'.next } : Db dbSizes) := by
  obtain ⟨hle, ho'⟩ := ho'
  rw [h.next] at hle
  rw [ho']
  have haccounted : Accounted sizes s.tree o'.next o.stats := h.accounted.mono hle
  exact { h with
    next := rfl
    accounted := haccounted
    fresh := fun ha => h.fresh (Nat.le_trans hle ha)
    retired := fun hq => Nat.lt_of_lt_of_le (h.toStores.retired hq) hle
    fresh_free := fun ha => h.fresh_free (Nat.le_trans hle ha) }

variable {κ E : Type} [LawfulArtKey κ] {K : Set (List UInt8)} {path : NodePtr → List UInt8}
  {lost : NodeType → Nat} {o o' : OlcDb sizes} {s s' : Db dbSizes} {k : κ} {v : List UInt8}
  {me rounds : Nat}
  {P : Choice → Prop}

/-! ## 4. Updates -/

theorem insertInternal_ends (hm : o.Mirrors s) (h : s.Inv K path lost)
    (hfree : Radix.PrefixFree K) (hk : ArtKey.getKeyView k ∈ K) :
    (insertInternal me k v (rounds + 1) none).Ends P
      (fun r => UpdateOk K path lost o s (Db.insertInternal k v s) [] (.done r))
      (UpdateFails P (Db.leafRefusal k v) o s (Db.insertInternal k v s)) o := by
  rw [insertInternal]
  refine .bind ((tryInsert_ends hm h hfree hk).mono ?_ fun _ _ he => he)
  rintro (cachedLeaf | r) o' hok
  · obtain ⟨_, ⟨⟩⟩ := hok
  · exact hok

theorem removeInternal_ends (hm : o.Mirrors s) (h : s.Inv K path lost)
    (hfree : Radix.PrefixFree K) (hk : ArtKey.getKeyView k ∈ K) :
    (removeInternal me k (rounds + 1)).Ends P
      (fun r => RemoveOk K path lost o s (Db.removeInternal k s) (ArtKey.getKeyView k) (.done r))
      (RemoveFails P o (Db.removeInternal k s)) o := by
  rw [removeInternal]
  refine .bind ((tryRemove_ends hm h (h.tree.stays hfree hk)).mono ?_ fun _ _ he => he)
  rintro (cachedLeaf | r) o' hok
  · obtain ⟨_, ⟨_, ⟨⟩⟩, _⟩ := hok
  · exact hok

/-- The mirror after an update. -/
theorem UpdateOk.mirrors (hm : o.Mirrors s) (h : s.Inv K path lost)
    {x : EStateM.Result Fault (Db dbSizes) Bool} {spared : List Nat} {r : Bool}
    (hok : UpdateOk K path lost o s x spared (.done r) o') :
    ∃ s', x = .ok r s' ∧ o'.Mirrors s' ∧ ∃ path', s'.Inv K path' lost := by
  obtain ⟨s', hok⟩ := hok
  cases r with
  | false =>
    obtain ⟨hx, rfl, -⟩ := hok
    exact ⟨s, hx, hm, path, h⟩
  | true =>
    obtain ⟨hx, hstores, ⟨bumped, killed, hwrites⟩, path', hinv, -⟩ := hok
    exact ⟨s', hx, hm.of_writes hwrites hstores, path', hinv⟩

/-! ## 5. Calls -/

/-- How a call may end: as the call of the mirrored `db` does. -/
def CallOk (K : Set (List UInt8)) (encode : E → κ) (s : Db dbSizes) (c : Call E) (r : Output)
    (o' : OlcDb sizes) : Prop :=
  ∃ s' path' lost', Db.step encode c s = (.ok r, s') ∧ o'.Mirrors s' ∧ s'.Inv K path' lost'

/-- How a call may end with an exception: for lack of memory, or as the call of the mirrored `db` does.
    Where that one fails an assertion, nothing is said about the state. -/
def CallFails (P : Choice → Prop) (encode : E → κ) (o : OlcDb sizes) (s : Db dbSizes) (c : Call E)
    (e : Fault)
    (o' : OlcDb sizes) : Prop :=
  (Restored o o' ∧ e = .badAlloc ∧ c.refusal encode = none ∧ ∃ choice, P choice ∧ choice.badAlloc = true) ∨
    (o' = o ∧ Db.step encode c s = (.error e, s) ∧ e.isException) ∨
    (e = .assertion ∧ (Db.step encode c s).1 = .error .assertion)

theorem call_ends (me rounds : Nat) (encode : E → κ) (hm : o.Mirrors s) (h : s.Inv K path lost)
    (hfree : Radix.PrefixFree K) {c : Call E} (hc : c.KeyIn {k | Db.view encode k ∈ K}) :
    (call me (rounds + 1) encode c).Ends P (CallOk K encode s c) (CallFails P encode o s c) o := by
  cases c with
  | insert k v =>
    refine .bind ((insertInternal_ends hm h hfree hc).mono ?_ ?_)
    · intro r o' hok
      obtain ⟨s', hx, hm', path', hinv⟩ := hok.mirrors hm h
      refine ⟨s', path', lost, ?_, hm', hinv⟩
      rw [Db.step, Db.call, DbM.bind_ok hx]
      rfl
    · rintro e o' (hbad | ⟨rfl, hx, he⟩ | ⟨rfl, s', hx⟩)
      · exact .inl hbad
      · refine .inr (.inl ⟨rfl, ?_, he⟩)
        rw [Db.step, Db.call, DbM.bind_error hx]
      · refine .inr (.inr ⟨rfl, ?_⟩)
        rw [Db.step, Db.call, DbM.bind_error hx]
  | remove k =>
    refine .bind ((removeInternal_ends hm h hfree hc).mono ?_ ?_)
    · rintro r o' ⟨spared, hok, -⟩
      obtain ⟨s', hx, hm', path', hinv⟩ := hok.mirrors hm h
      refine ⟨s', path', lost, ?_, hm', hinv⟩
      rw [Db.step, Db.call, DbM.bind_ok hx]
      rfl
    · rintro e o' (⟨rfl, hbad⟩ | ⟨rfl, s', hx⟩)
      · exact .inl ⟨.refl _, hbad.1, rfl, hbad.2⟩
      · refine .inr (.inr ⟨rfl, ?_⟩)
        rw [Db.step, Db.call, DbM.bind_error hx]
  | get k =>
    have hstays := h.tree.stays hfree hc
    obtain ⟨r, hr, -⟩ := Db.getInternal_spec (k := encode k) h.tree hstays
    refine .step (getInternal_yields h.tree hm.quiet hstays hr rounds) ⟨s, path, lost, ?_, hm, h⟩
    rw [Db.step, Db.call, DbM.bind_get, DbM.bind_lift hr]
    rfl
  | empty =>
    refine .step yields_loadRoot ⟨s, path, lost, ?_, hm, h⟩
    rw [hm.quiet.root_eq]
    rfl
  | clear =>
    obtain ⟨s', hclear, -, hinv⟩ := h.clear_spec
    obtain ⟨o', hyields, hm'⟩ := clear_yields hm h hclear
    refine .step hyields ⟨s', path, _, ?_, hm', hinv⟩
    rw [Db.step, Db.call, DbM.bind_ok hclear]
    rfl

/-! ## 6. Runs -/

/-- The call returns or throws an exception. -/
def Completes : Except Fault Output → Prop
  | .ok _ => True
  | .error e => e.isException

/-- A call that a thread makes alone, and what it returns or throws. -/
def Performs (encode : E → κ) (o : OlcDb sizes) (e : Call E × Except Fault Output)
    (o' : OlcDb sizes) : Prop :=
  ∃ me rounds choices, (call me (rounds + 1) encode e.1).exec choices o = some (e.2, o')

/-- Calls that thread `me` makes one after the other, with one attempt for each. -/
def runCalls (me : Nat) (choices : Nat → Choice) (encode : E → κ) :
    List (Call E) → OlcDb sizes → Option (List (Except Fault Output) × OlcDb sizes)
  | [], o => some ([], o)
  | c :: cs, o =>
    match (call me 1 encode c).exec choices o with
    | none => none
    | some (r, o') =>
      match runCalls me choices encode cs o' with
      | none => none
      | some (rs, o'') => some (r :: rs, o'')

theorem run_of_runCalls {choices : Nat → Choice} {encode : E → κ} {calls : List (Call E)}
    {rs : List (Except Fault Output)} (hrun : runCalls me choices encode calls o = some (rs, o')) :
    Run (Performs encode) o (calls.zip rs) o' := by
  induction calls generalizing o rs with
  | nil =>
    cases hrun
    exact .nil _
  | cons c cs ih =>
    rw [runCalls] at hrun
    split at hrun
    · cases hrun
    rename_i r o₁ hstep
    split at hrun
    · cases hrun
    rename_i rs' o₂ hrest
    cases hrun
    exact .cons ⟨me, 0, choices, hstep⟩ (ih hrest)

theorem empty_mirrors : (OlcDb.empty sizes).Mirrors (Db.empty dbSizes) where
  tree := rfl
  next := rfl
  nodeCounts := rfl
  growing := rfl
  shrinking := rfl
  splits := rfl
  accounted := Db.Accounted.of_empty (fun _ => rfl) (fun _ => rfl) rfl
  fresh _ := rfl
  retired := by
    intro t p hp
    cases hp
  root_free := ⟨0, rfl⟩
  node_free := by
    intro a body ha
    cases ha
  fresh_free _ := rfl
  obsolete := by
    intro t p hp
    cases hp

/-- A call that completes leaves the mirror of a `db`. -/
theorem Performs.mirrors {encode : E → κ} {e : Call E × Except Fault Output}
    (hperforms : Performs encode o e o') (hm : o.Mirrors s) (h : s.Inv K path lost)
    (hfree : Radix.PrefixFree K) (hc : e.1.KeyIn {k | Db.view encode k ∈ K})
    (hcompletes : Completes e.2) :
    ∃ (s' : Db dbSizes) (path' : _) (lost' : _), o'.Mirrors s' ∧ s'.Inv K path' lost' := by
  obtain ⟨me, rounds, choices, hexec⟩ := hperforms
  obtain ⟨r, o₁, hexec₁, hok, hfails⟩ := (call_ends (P := fun _ => True) me rounds encode hm h hfree
    hc).exec choices fun _ => trivial
  obtain ⟨rfl, rfl⟩ := Prod.mk.inj (Option.some_inj.mp (hexec₁.symm.trans hexec))
  cases hr : e.2 with
  | ok a =>
    obtain ⟨s', path', lost', -, hm', hinv⟩ := hok a hr
    exact ⟨s', path', lost', hm', hinv⟩
  | error fault =>
    rcases hfails fault hr with ⟨hrestored, -⟩ | ⟨rfl, -⟩ | ⟨rfl, -⟩
    · exact ⟨_, path, lost, hm.restored hrestored, h.restored (hm.next ▸ hrestored.1)⟩
    · exact ⟨s, path, lost, hm, h⟩
    · rw [hr] at hcompletes
      cases hcompletes

/-- What a run keeps: the calls that have been made leave the mirror of a `db`. -/
theorem run_mirrors {encode : E → κ} (hfree : Radix.PrefixFree K) (hm : o.Mirrors s)
    (h : s.Inv K path lost) {events : List (Call E × Except Fault Output)}
    (hrun : Run (Performs encode) o events o')
    (hkeys : ∀ e ∈ events, e.1.KeyIn {k | Db.view encode k ∈ K})
    (hcompletes : ∀ e ∈ events, Completes e.2) :
    ∃ (s' : Db dbSizes) (path' : _) (lost' : _), o'.Mirrors s' ∧ s'.Inv K path' lost' := by
  induction hrun generalizing s path lost with
  | nil => exact ⟨s, path, lost, hm, h⟩
  | @cons o o₁ _ e events hstep _ ih =>
    obtain ⟨s₁, path₁, lost₁, hm₁, h₁⟩ := hstep.mirrors hm h hfree (hkeys e List.mem_cons_self)
      (hcompletes e List.mem_cons_self)
    exact ih hm₁ h₁ (fun e' he' => hkeys e' (List.mem_cons_of_mem e he'))
      fun e' he' => hcompletes e' (List.mem_cons_of_mem e he')

/-- The states of an `olc_db` that one thread at a time has used, with keys of a set. -/
def Used (o : OlcDb sizes) (encode : E → κ) (K : Set (List UInt8)) : Prop :=
  ∃ events, Run (Performs encode) (.empty sizes) events o ∧
    ∀ e ∈ events, e.1.KeyIn {k | Db.view encode k ∈ K} ∧ Completes e.2

theorem Used.mirrors {encode : E → κ} (h : o.Used encode K) (hfree : Radix.PrefixFree K) :
    ∃ (s : Db sizes) (path : _) (lost : _), o.Mirrors s ∧ s.Inv K path lost := by
  obtain ⟨events, hrun, hevents⟩ := h
  exact run_mirrors hfree empty_mirrors (Db.Inv.empty fun _ => []) hrun
    (fun e he => (hevents e he).1) fun e he => (hevents e he).2

end OlcDb

end Unodb
