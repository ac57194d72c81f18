import Unodb.Olc.Watch
import Unodb.Olc.Refine

/-!
# An iterator amid complete updates

Between two calls of an iterator other threads may make complete updates, which make versions on its
stack stale.  An entry whose version is that of its lock still tells the way: from the leaf up to the
first stale entry the stack is the path in the present tree.  A move that comes to a stale entry seeks
the key of its leaf again.
-/

namespace Unodb

/-- The entry that leads to a child. -/
theorem OnPath.exists_child {t : Tree} {stack : List StackEntry} {p : NodePtr} {b : UInt8}
    (hpath : OnPath t stack (.child p b)) :
    ∃ below slot n e, stack = ⟨p, b, e.childIndex, e.keyPrefix⟩ :: below ∧ OnPath t below slot ∧
      t.graph.read slot = some p ∧ t.deref p = some (.inode n) ∧ n.IsResult e ∧ e.keyByte = b := by
  generalize htarget : Radix.Slot.child p b = target at hpath
  cases hpath with
  | root => cases htarget
  | child hpath hread hp hres =>
    obtain ⟨rfl, rfl⟩ := Radix.Slot.child.inj htarget
    exact ⟨_, _, _, _, rfl, hpath, hread, hp, hres, rfl⟩

namespace OlcDb

/-- A program that leaves the state as it is comes to such a result, if no other thread acts. -/
def Comes {β : Type} (o : OlcDb sizes) (P : β → Prop) (p : OlcM sizes β) : Prop :=
  ∃ b, p.Yields o (.ok b) o ∧ P b

namespace Comes

variable {β γ : Type} {o : OlcDb sizes} {P Q : β → Prop} {p p' : OlcM sizes β} {cs : CriticalSection}

theorem ret {b : β} (h : P b) : Comes o P (Prog.ret b) := ⟨b, Prog.Yields.ret b o, h⟩

theorem step {q : OlcM sizes γ} {c : γ} {k : γ → OlcM sizes β} (hq : q.Yields o (.ok c) o)
    (h : Comes o P (k c)) : Comes o P (q >>= k) := by
  obtain ⟨b, hb, hP⟩ := h
  exact ⟨b, hq.bind hb, hP⟩

theorem bind {R : γ → Prop} {q : OlcM sizes γ} {k : γ → OlcM sizes β} (hq : Comes o R q)
    (hk : ∀ c, R c → Comes o P (k c)) : Comes o P (q >>= k) := by
  obtain ⟨c, hc, hR⟩ := hq
  exact step hc (hk c hR)

theorem lift {x : Except Fault γ} {c : γ} {k : γ → OlcM sizes β} (hx : x = .ok c)
    (h : Comes o P (k c)) : Comes o P (Prog.lift x >>= k) := by
  subst hx
  exact step (Prog.Yields.lift _ o) h

theorem check (hcs : o.Valid cs) (h : Comes o P p) :
    Comes o P (OlcDb.check cs >>= fun ok => if ok then p else p') :=
  step (yields_check hcs) h

/-- A check of a section that is no longer valid. -/
theorem check_stale (hcs : ¬ o.Valid cs) (h : Comes o P p') :
    Comes o P (OlcDb.check cs >>= fun ok => if ok then p else p') := by
  refine step (Prog.Yields.action (a := false) fun _ => ?_) h
  show some (decide (o.Valid cs), o) = _
  rw [decide_eq_false hcs]

theorem mono (h : Comes o P p) (hP : ∀ b, P b → Q b) : Comes o Q p := by
  obtain ⟨b, hb, hPb⟩ := h
  exact ⟨b, hb, hP b hPb⟩

end Comes

/-! ## 1. Stacks with stale versions -/

/-- The entries of a stack lead from the root to a slot, or down to it from the last stale one. -/
inductive Leads (o : OlcDb sizes) (t : Tree) :
    List OlcStackEntry → Radix.Slot NodePtr UInt8 → Prop where
  | root : Leads o t [] .root
  | stale {stack : List OlcStackEntry} {slot : Radix.Slot NodePtr UInt8} {e : OlcStackEntry} :
      ¬ o.Valid e.section → Leads o t (e :: stack) slot
  | child {stack : List OlcStackEntry} {slot : Radix.Slot NodePtr UInt8} {e : OlcStackEntry}
      {n : INode NodePtr} {i : Nat} :
      Leads o t stack slot → t.graph.read slot = some e.node → t.deref e.node = some (.inode n) →
      n.findChild e.keyByte = some (e.childIndex, i) → Leads o t (e :: stack) (.child e.node e.keyByte)

/-- The iterator is at a leaf with this key and value, which may have been removed since. -/
structure Lingers (o : OlcDb sizes) (t : Tree) (it : OlcIterator) (k v : List UInt8) : Prop where
  at_leaf : ∃ e stack, it.stack = e :: stack ∧ o.mem.deref e.node = some (.leaf k v) ∧
    (o.Valid e.section → ∃ slot, Leads o t stack slot ∧ t.graph.read slot = some e.node)
  begun : ∀ e ∈ it.stack, (o.lock e.section.lock).AtLeast e.version
  buffered : Iterator.prefixBytes it.plain.stack ≤ it.keybuf.length

/-- Both iterators are at the end, or this one is at the leaf of the other one. -/
def Joins (o : OlcDb sizes) (t : Tree) (it : Iterator) (jt : OlcIterator) : Prop :=
  (it.stack = [] ∧ jt.stack = []) ∨ ∃ k v, it.On t k v ∧ o.Lingers t jt k v

section Passing

variable {K : Set (List UInt8)} {path path' : NodePtr → List UInt8} {o o' : OlcDb sizes}
  {s s' : Db dbSizes} {stack : List OlcStackEntry} {slot slot' : Radix.Slot NodePtr UInt8}
  {p : NodePtr} {it : OlcIterator} {k v : List UInt8} {left : Nat → Prop} {version : Nat}
  (hm : o.Mirrors s) (hm' : o'.Mirrors s') (h' : s'.tree.Inv K path') (hpasses : Passes o o' left)

include hm hm' h' hpasses

/-- What is left of a stack after an update, for a node that has kept its version. -/
theorem Leads.passes (hleads : Leads o s.tree stack slot)
    (hbegun : ∀ e ∈ stack, (o.lock e.section.lock).AtLeast e.version)
    (hread : s.tree.graph.read slot = some p) (hread' : s'.tree.graph.read slot' = some p)
    (hfree : o.lock (.node p.addr) = .free version) (hfree' : o'.lock (.node p.addr) = .free version) :
    Leads o' s'.tree stack slot' := by
  induction hleads generalizing p slot' version with
  | root =>
    have hroot : o.mem.root = some p := hm.quiet.root_eq.trans hread
    have hroot' : s'.tree.graph.read .root = some p :=
      hm'.quiet.root_eq.symm.trans (hpasses.rooted p version hroot hfree hfree')
    obtain rfl := h'.graph.slot_unique hread' hroot'
    exact .root
  | @stale stack slot e hstale =>
    exact .stale fun hvalid' =>
      hstale ((hpasses.lock _ e.version (hbegun e List.mem_cons_self)).2 hvalid')
  | @child stack slot₀ e n i hleads hread₀ hp hfind ih =>
    by_cases hvalid' : o'.Valid e.section
    · have hvalid := (hpasses.lock _ e.version (hbegun e List.mem_cons_self)).2 hvalid'
      obtain ⟨n', hn', hcount, hlayout, -⟩ := hpasses.node e.node.addr e.version n hvalid hvalid'
        (Tree.deref_eq_some_iff.mp (hm.deref hp)).1
      have hp' : s'.tree.deref e.node = some (.inode n') := by
        refine hm'.linked hvalid' (Tree.deref_eq_some_iff.mpr ⟨hn', ?_⟩)
        exact (INode.type_of_layout hlayout).trans (Tree.deref_eq_some_iff.mp hp).2
      have hchild : s'.tree.graph.read (.child e.node e.keyByte) = some p := by
        rw [Tree.graph_read_child hp', INode.child_of_kids hcount hlayout, ← Tree.graph_read_child hp]
        exact hread
      obtain rfl := h'.graph.slot_unique hread' hchild
      obtain ⟨slot₁, hread₁⟩ := h'.graph.pointed (Tree.graph_node_inode hp')
      have hbelow := ih (fun e he => hbegun e (List.mem_cons_of_mem _ he)) hread₀ hread₁ hvalid hvalid'
      have hfind' : n'.findChild e.keyByte = some (e.childIndex, i) := by
        rw [INode.findChild_of_kids hcount hlayout, hfind]
      exact .child hbelow hread₁ hp' hfind'
    · exact .stale hvalid'

theorem Lingers.passes (hit : o.Lingers s.tree it k v) : o'.Lingers s'.tree it k v := by
  obtain ⟨e, stack, hstack, hleaf, hleads⟩ := hit.at_leaf
  obtain ⟨hheap, htype⟩ := Tree.deref_eq_some_iff.mp hleaf
  obtain ⟨body', hheap', hages⟩ := hpasses.ages _ _ hheap
  have hleaf' : o'.mem.deref e.node = some (.leaf k v) := by
    cases body' with
    | inode n => cases hages
    | leaf k' v' =>
      obtain ⟨rfl, rfl⟩ := hages
      exact Tree.deref_eq_some_iff.mpr ⟨hheap', htype⟩
  refine ⟨⟨e, stack, hstack, hleaf', fun hvalid' => ?_⟩,
    fun e he => (hpasses.lock _ _ (hit.begun e he)).1, hit.buffered⟩
  have hbegun : ∀ e' ∈ e :: stack, (o.lock e'.section.lock).AtLeast e'.version := hstack ▸ hit.begun
  have hvalid := (hpasses.lock _ _ (hbegun e List.mem_cons_self)).2 hvalid'
  obtain ⟨slot, hbelow, hread⟩ := hleads hvalid
  obtain ⟨slot', hread'⟩ := h'.graph.pointed (Tree.graph_node_leaf_iff.mpr (hm'.linked hvalid' hleaf'))
  exact ⟨slot', hbelow.passes hm hm' h' hpasses (fun e he => hbegun e (List.mem_cons_of_mem _ he)) hread
    hread' hvalid hvalid', hread'⟩

end Passing

/-! ## 2. Moves from such a stack -/

/-- Both stacks lead to the slot, the one of `olc_db` as far as its versions tell. -/
structure Abreast (o : OlcDb sizes) (t : Tree) (slot : Radix.Slot NodePtr UInt8) (it : Iterator)
    (jt : OlcIterator) : Prop where
  leads : Leads o t jt.stack slot
  path : OnPath t it.stack slot
  begun : ∀ e ∈ jt.stack, (o.lock e.section.lock).AtLeast e.version
  olc_buffered : Iterator.prefixBytes jt.plain.stack ≤ jt.keybuf.length
  buffered : Iterator.prefixBytes it.stack ≤ it.keybuf.length

section Moves

variable {K : Set (List UInt8)} {path : NodePtr → List UInt8} {t : Tree} {s : Db dbSizes}
  {o : OlcDb sizes} {slot : Radix.Slot NodePtr UInt8} {p : NodePtr} {stack : List OlcStackEntry}
  {below : List StackEntry} {keybuf buf : List UInt8} {it it' : Iterator} {jt : OlcIterator}
  {n : INode NodePtr} {e : IterResult} {k v : List UInt8} {fuel version : Nat}
  {parentCs cs : CriticalSection}

theorem begun_of_valid (hcs : o.Valid cs) : (o.lock cs.lock).AtLeast cs.version := by
  rw [show o.lock cs.lock = .free cs.version from hcs]
  exact Nat.le_refl cs.version

theorem Abreast.push (h : Abreast o t slot it jt) (hread : t.graph.read slot = some p)
    (hp : t.deref p = some (.inode n)) (hres : n.IsResult e) (hcs : o.Valid ⟨.node p.addr, version⟩) :
    Abreast o t (.child p e.keyByte)
      ⟨⟨p, e.keyByte, e.childIndex, e.keyPrefix⟩ :: it.stack,
        it.keybuf ++ e.keyPrefix.bytes ++ [e.keyByte]⟩
      (pushed jt p e ⟨.node p.addr, version⟩) where
  leads := by
    obtain ⟨i, hfind⟩ := hres.find
    exact .child h.leads hread hp hfind
  path := h.path.child hread hp hres
  begun := by
    intro e' he'
    rcases List.mem_cons.mp he' with rfl | he'
    · exact begun_of_valid hcs
    · exact h.begun e' he'
  olc_buffered := Iterator.push_buffered p e h.olc_buffered
  buffered := Iterator.push_buffered p e h.buffered

theorem Abreast.pushLeaf (h : Abreast o t slot it jt) (hread : t.graph.read slot = some p)
    (hp : t.deref p = some (.leaf k v)) (hmem : o.mem.deref p = some (.leaf k v))
    (hcs : o.Valid ⟨.node p.addr, version⟩) :
    Joins o t ⟨Iterator.leafEntry p :: it.stack, it.keybuf⟩
      (jt.tryPushLeaf p ⟨.node p.addr, version⟩) := by
  have hbytes : ∀ stack, Iterator.prefixBytes (Iterator.leafEntry p :: stack) =
      Iterator.prefixBytes stack := fun stack => by
    rw [Iterator.prefixBytes_cons, Iterator.leafEntry_length, Nat.zero_add]
  refine .inr ⟨k, v, ⟨⟨it.stack, slot, p, rfl, h.path, hread, hp⟩, (hbytes _).trans_le h.buffered⟩,
    ⟨⟨_, jt.stack, rfl, hmem, fun _ => ⟨slot, h.leads, hread⟩⟩, fun e he => ?_,
      (hbytes _).trans_le h.olc_buffered⟩⟩
  rcases List.mem_cons.mp he with rfl | he
  · exact begun_of_valid hcs
  · exact h.begun e he

variable (h : s.tree.Inv K path) (hq : o.Quiet s) (fwd : Bool)
include h hq

/-- A descent below a stack with stale versions ends at the leaf where that of `db` ends. -/
theorem traversalLoop_joins (habreast : Abreast o s.tree slot it jt)
    (hread : s.tree.graph.read slot = some p) (hcs : o.Valid parentCs)
    (hx : Iterator.traversal s.tree fwd fuel p it = .ok it') :
    Comes o (fun r => r.2 = true ∧ o.Joins s.tree it' r.1) (traversalLoop fwd fuel p parentCs jt) := by
  induction fuel generalizing slot p parentCs it jt with
  | zero => cases hx
  | succ fuel ih =>
    obtain ⟨version, hlock⟩ := lock_free h hq hread
    have hnode : o.Valid ⟨.node p.addr, version⟩ := hlock
    rw [Iterator.traversal] at hx
    rw [traversalLoop]
    refine .step (yields_tryReadLock hlock) (.check hcs ?_)
    by_cases htype : p.type = .leaf
    · rw [if_pos htype] at hx ⊢
      obtain rfl := Except.ok.inj hx
      obtain ⟨k, v, hp, -⟩ := h.leaf_of_tag hread htype
      exact .step (yields_check hnode)
        (.ret ⟨rfl, habreast.pushLeaf hread hp (hq.deref hp) hnode⟩)
    · obtain ⟨n, hp, hwf, -⟩ := h.inode_of_tag hread htype
      obtain ⟨e, hok, hres, -⟩ := hwf.outermost fwd
      obtain ⟨c, hc, hget⟩ := hwf.getChild_of_isResult hres
      have hread' : s.tree.graph.read (.child p e.keyByte) = some c := by
        rw [Tree.graph_read_child hp, hc]
      rw [if_neg htype, Tree.readInode_ok hp] at hx
      change (n.outermost fwd >>= _) = _ at hx
      rw [hok] at hx
      change (it.push p e >>= _) = _ at hx
      rw [Iterator.push_ok e htype] at hx
      simp only [bind, Except.bind, hget] at hx
      rw [if_neg htype]
      refine .step (yields_reading hq hnode hp _) (.check hnode ?_)
      refine .lift hok (.lift (tryPush_ok htype) ?_)
      refine .step (yields_reading hq hnode hp _) (.check hnode (.lift (by rw [hget]; rfl) ?_))
      exact ih (habreast.push hread hp hres hnode) hread' hnode hx

/-- `try_next` and `try_prior` from a stack with stale versions: they fail, or end where the function of
    `db` does. -/
theorem tryAdvance_inner_joins (habreast : Abreast o s.tree slot ⟨below, buf⟩ ⟨stack, keybuf⟩)
    (hx : Iterator.advance s fwd below buf = .ok it') :
    Comes o (fun r => r.2 = true → o.Joins s.tree it' r.1) (tryAdvance s.next fwd stack keybuf) := by
  induction stack generalizing slot below buf keybuf with
  | nil =>
    obtain ⟨hleads, hpath, -⟩ := habreast
    cases hleads
    cases hpath
    obtain rfl := Except.ok.inj hx
    exact .ret fun _ => .inl ⟨rfl, rfl⟩
  | cons e stack ih =>
    rw [tryAdvance]
    by_cases hvalid : o.Valid e.section
    case neg => exact .check_stale hvalid (.ret fun hok => absurd hok Bool.false_ne_true)
    refine .check hvalid ?_
    obtain ⟨hleads, hpath, hbegun, holc, hbuf⟩ := habreast
    cases hleads with
    | stale hstale => exact absurd hvalid hstale
    | @child _ slot₀ _ n i hleads₀ hread hp hfind =>
      obtain ⟨below₀, slot₁, n₁, e₁, rfl, hpath₀, hread₁, hp₁, hres₁, hbyte⟩ := hpath.exists_child
      obtain rfl := h.graph.slot_unique hread hread₁
      obtain rfl : n = n₁ := Body.inode.inj (Option.some_inj.mp (hp.symm.trans hp₁))
      obtain ⟨i₁, hfind₁⟩ := hres₁.find
      have hindex : e₁.childIndex = e.childIndex := by
        rw [hbyte, hfind] at hfind₁
        exact (congrArg Prod.fst (Option.some_inj.mp hfind₁)).symm
      have htype : e.node.type ≠ .leaf := (Tree.deref_eq_some_iff.mp hp).2 ▸ n.type_ne_leaf
      have hwf : n.WF := h.wf (Tree.deref_eq_some_iff.mp hp).1
      obtain ⟨r, hsib, hr⟩ := hwf.sibling fwd hfind
      have holc : Iterator.prefixBytes (e.toStackEntry :: stack.map OlcStackEntry.toStackEntry) ≤
        keybuf.length := holc
      have hbuf : Iterator.prefixBytes (⟨e.node, e.keyByte, e₁.childIndex, e₁.keyPrefix⟩ :: below₀) ≤
        buf.length := hbuf
      obtain ⟨keybuf', hpop, holc'⟩ := Iterator.popKeybuf_buffered holc
      obtain ⟨buf', hpop', hbuf'⟩ := Iterator.popKeybuf_buffered hbuf
      have hbegun' : ∀ e' ∈ stack, (o.lock e'.section.lock).AtLeast e'.version :=
        fun e' he' => hbegun e' (List.mem_cons_of_mem _ he')
      have hrest : Abreast o s.tree slot₀ ⟨below₀, buf'⟩ ⟨stack, keybuf'⟩ :=
        ⟨hleads₀, hpath₀, hbegun', holc', hbuf'⟩
      rw [Iterator.advance, if_neg htype, Tree.readInode_ok hp] at hx
      change (n.sibling fwd e₁.childIndex >>= _) = _ at hx
      rw [show n.sibling fwd e₁.childIndex = .ok r from hindex ▸ hsib] at hx
      rw [if_neg htype]
      refine .step (yields_reading hq hvalid hp _) (.check hvalid (.lift hsib ?_))
      cases r with
      | none =>
        change (Iterator.popKeybuf buf _ >>= _) = _ at hx
        rw [hpop'] at hx
        exact .lift hpop (.check hvalid (ih hrest hx))
      | some e2 =>
        obtain ⟨c, hc, hget⟩ := hwf.getChild_of_isResult hr.1
        have hread' : s.tree.graph.read (.child e.node e2.keyByte) = some c := by
          rw [Tree.graph_read_child hp, hc]
        change (Iterator.popKeybuf buf _ >>= _) = _ at hx
        rw [hpop'] at hx
        change (Iterator.push ⟨below₀, buf'⟩ e.node e2 >>= _) = _ at hx
        rw [Iterator.push_ok e2 htype] at hx
        simp only [bind, Except.bind, hget] at hx
        refine .lift hpop (.lift (tryPush_ok htype) ?_)
        refine .step (yields_reading hq hvalid hp _) (.check hvalid (.lift (by rw [hget]; rfl) ?_))
        have hdescent := traversalLoop_joins h hq fwd (hrest.push hread hp hr.1 hvalid) hread' hvalid hx
        exact .check hvalid (hdescent.mono fun _ hjoins _ => hjoins.2)

omit hq in
/-- At every node there is the path to it. -/
theorem exists_onPath (hread : s.tree.graph.read slot = some p) :
    ∃ below, OnPath s.tree below slot := by
  obtain ⟨len, hlen⟩ : ∃ len, (path p).length = len := ⟨_, rfl⟩
  induction len using Nat.strongRecOn generalizing slot p with
  | ind len ih =>
    cases slot with
    | root => exact ⟨[], .root⟩
    | child a b =>
      obtain ⟨pre, c, hnode, -⟩ := Radix.read_child_iff.mp hread
      obtain ⟨n, ha⟩ := Tree.inode_of_inner hnode
      obtain ⟨up, hup⟩ := h.graph.pointed hnode
      have hlt := h.graph.path_lt_of_child hread
      obtain ⟨below, hbelow⟩ := ih _ (hlen ▸ hlt) hup rfl
      rw [Tree.graph_read_child ha] at hread
      obtain ⟨ci, i, hfind, -⟩ := (h.wf (Tree.deref_eq_some_iff.mp ha).1).exists_findChild hread
      exact ⟨_, hbelow.child hup ha (e := ⟨b, ci, n.keyPrefix⟩) ⟨⟨i, hfind⟩, rfl⟩⟩

/-- `try_next` and `try_prior` of an iterator at a leaf that may have been removed. -/
theorem tryAdvance_joins (hlingers : o.Lingers s.tree jt k v)
    (hheight : ∀ {p body}, s.tree.deref p = some body → Radix.HeightLE s.tree.graph s.next p) :
    Comes o (fun r => r.2 = true → ∃ it it' : Iterator, it.On s.tree k v ∧
        Iterator.advance s fwd it.stack it.keybuf = .ok it' ∧ o.Joins s.tree it' r.1)
      (tryAdvance s.next fwd jt.stack jt.keybuf) := by
  obtain ⟨⟨e, stack, hstack, hleaf, hleads⟩, hbegun, holc⟩ := hlingers
  obtain ⟨stack', keybuf⟩ := jt
  obtain rfl : stack' = e :: stack := hstack
  rw [tryAdvance]
  by_cases hvalid : o.Valid e.section
  case neg => exact .check_stale hvalid (.ret fun hok => absurd hok Bool.false_ne_true)
  obtain ⟨slot, hleads, hread⟩ := hleads hvalid
  have hp : s.tree.deref e.node = some (.leaf k v) := by
    obtain ⟨body, hbody⟩ := h.body_of_read hread
    rw [hbody, ← hleaf, hq.deref hbody]
  have htype : e.node.type = .leaf := (Tree.deref_eq_some_iff.mp hp).2.symm
  obtain ⟨below, hpath⟩ := exists_onPath h hread
  -- The path in the present tree, with enough bytes in the buffer.
  have hon : Iterator.On s.tree ⟨Iterator.leafEntry e.node :: below, List.replicate
      (Iterator.prefixBytes (Iterator.leafEntry e.node :: below)) 0⟩ k v :=
    ⟨⟨below, slot, e.node, rfl, hpath, hread, hp⟩, (List.length_replicate ..).ge⟩
  obtain ⟨it', hx, -⟩ := hon.advance_spec h fwd hheight
  obtain ⟨keybuf', hpop, holc'⟩ := Iterator.popKeybuf_buffered (e := e.toStackEntry) holc
  obtain ⟨buf', hpop', hbuf'⟩ := Iterator.popKeybuf_buffered hon.buffered
  have hx' : Iterator.advance s fwd below buf' = .ok it' := by
    rw [Iterator.advance, if_pos (show (Iterator.leafEntry e.node).node.type = .leaf from htype),
      hpop'] at hx
    exact hx
  have hrest : Abreast o s.tree slot ⟨below, buf'⟩ ⟨stack, keybuf'⟩ :=
    ⟨hleads, hpath, fun e' he' => hbegun e' (List.mem_cons_of_mem _ he'), holc', hbuf'⟩
  refine .check hvalid ?_
  rw [if_pos htype]
  refine .lift hpop (.check hvalid ((tryAdvance_inner_joins h hq fwd hrest hx').mono ?_))
  exact fun r hjoins hok => ⟨_, it', hon, hx, hjoins hok⟩

end Moves

/-! ## 3. Operations with 64-bit keys -/

/-- The iterator is at the end, or at a leaf of the tree with this key. -/
def Points (o : OlcDb sizes) (t : Tree) (jt : OlcIterator) : Option (BitVec 64) → Prop
  | none => jt.stack = []
  | some k => ∃ v, t.Binds (Db.view U64Key.make k) v ∧ o.Lingers t jt (Db.view U64Key.make k) v

section Operations

variable {path : NodePtr → List UInt8} {lost : NodeType → Nat} {s : Db dbSizes} {o : OlcDb sizes}
  {m : RefMap (BitVec 64)} {it : Iterator} {jt : OlcIterator} {k : BitVec 64} {v : List UInt8}
  {c : Option (BitVec 64)} {slot : Radix.Slot NodePtr UInt8} {stack : List OlcStackEntry}

theorem Joins.points (h : o.Joins s.tree it jt) (hit : it.Stands s c) : o.Points s.tree jt c := by
  rcases h with ⟨hend, holc⟩ | ⟨x, v, hon, hlingers⟩
  · cases c with
    | none => exact holc
    | some k =>
      obtain ⟨v, hon⟩ := hit
      exact absurd hend hon.ne_nil
  · cases c with
    | none => exact absurd hit hon.ne_nil
    | some k =>
      obtain ⟨w, hon'⟩ := hit
      obtain ⟨rfl, rfl⟩ := hon.unique hon'
      exact ⟨v, Tree.binds_iff.mp hon.binds, hlingers⟩

theorem leads_of_onPath (hpath : OnPath s.tree (stack.map OlcStackEntry.toStackEntry) slot) :
    Leads o s.tree stack slot := by
  generalize hbelow : stack.map OlcStackEntry.toStackEntry = below at hpath
  induction hpath generalizing stack with
  | root =>
    obtain rfl := List.map_eq_nil_iff.mp hbelow
    exact .root
  | child hpath hread hp hres ih =>
    obtain ⟨e, stack, rfl, he, hrest⟩ := List.map_eq_cons_iff.mp hbelow
    obtain ⟨i, hfind⟩ := hres.find
    obtain ⟨⟨node, keyByte, childIndex, keyPrefix⟩, version⟩ := e
    cases he
    exact .child (ih hrest) hread hp hfind

/-- An iterator that follows one of `db` is at its leaf. -/
theorem Tracks.joins (hq : o.Quiet s) (h : o.Tracks it jt) (hit : it.Placed s.tree) :
    o.Joins s.tree it jt := by
  obtain ⟨⟨junk, hplain⟩, hfresh⟩ := h
  have hstack : jt.plain.stack = it.stack := by
    rw [hplain]
    rfl
  rcases hit with hend | ⟨k, v, hon⟩
  · exact .inl ⟨hend, List.map_eq_nil_iff.mp (hstack.trans hend)⟩
  · refine .inr ⟨k, v, hon, ?_⟩
    obtain ⟨⟨below, slot, p, hbelow, hpath, hread, hp⟩, hbuf⟩ := hon
    obtain ⟨e, stack, hjt, he, hrest⟩ := List.map_eq_cons_iff.mp (hstack.trans hbelow)
    have hnode : e.node = p := congrArg StackEntry.node he
    refine ⟨⟨e, stack, hjt, hnode ▸ hq.deref hp, fun _ => ⟨slot, ?_, hnode ▸ hread⟩⟩, ?_, ?_⟩
    · exact leads_of_onPath (hrest ▸ hpath)
    · exact fun e he => begun_of_valid (hfresh e he)
    · have hlen : jt.keybuf.length = junk.length + it.keybuf.length := by
        rw [show jt.keybuf = junk ++ it.keybuf from congrArg Iterator.keybuf hplain, List.length_append]
      rw [hstack]
      omega

variable (h : s.Inv Db.u64Views path lost) (hrep : Db.Represents U64Key.make s m) (hq : o.Quiet s)
  (fwd : Bool)

/-- The key that is made again of the bytes of a leaf. -/
theorem ofKeyView_view (k : BitVec 64) :
    StoredKey.ofKeyView (Db.view U64Key.make k) = U64Key.make k := by
  show U64Key.mk (getU64 (ArtKey.getKeyView (U64Key.make k))) = ⟨(U64Key.make k).key⟩
  refine congrArg U64Key.mk (Words.word_ext fun i hi => ?_)
  rw [wordByte_getU64 _ hi, List.getD_eq_getElem?_getD, U64Key.getKeyView_getElem?, if_pos hi,
    Option.getD_some]

include h hrep hq

/-- A seek that does not end at a dead end finds the first key at or beyond the search key. -/
theorem trySeek_points (hdead : ¬ DeadEnd s.tree.Keys (Db.view U64Key.make k) fwd) (jt : OlcIterator) :
    Comes o (fun r => ∃ found it c, r.2 = some found ∧ (found = true ↔ (m k).isSome) ∧
        o.Tracks it r.1 ∧ it.Stands s c ∧ Radix.Foremost (Toward fwd) (fromKey m fwd k) c)
      (trySeek s.next (U64Key.make k) fwd jt) := by
  obtain ⟨it, found, hrun, hresult⟩ := seek_u64_spec h k fwd
  obtain ⟨c, hit, hc⟩ := stands_of_seeks hrep (hresult.seeks_iff.mpr hdead)
  obtain ⟨jt', hyields, htracks⟩ := trySeek_tracks h hq fwd hrun jt
  exact ⟨_, hyields, found, it, c, rfl, hresult.matches_iff.trans (mem_keys_iff hrep), htracks, hit, hc⟩

omit h hrep hq in
theorem placed_of_stands (hit : it.Stands s c) : it.Placed s.tree := by
  cases c with
  | none => exact .inl hit
  | some k =>
    obtain ⟨v, hon⟩ := hit
    exact .inr ⟨_, v, hon⟩

/-- `first` and `last`. -/
theorem outermost_points (rounds : Nat) (jt : OlcIterator) :
    Comes o (fun r => ∃ c, o.Points s.tree r.1 c ∧
        Radix.Foremost (Toward fwd) (Iterator.stored m) c)
      ((IterOperation.outermost fwd : IterOperation U64Key).run s.next (rounds + 1) jt) := by
  obtain ⟨it, c, hrun, hit, hc⟩ := Iterator.outermost_stands h hrep fwd
  have hx : (if fwd then Iterator.first s else Iterator.last s) = .ok it := by
    rw [outermost_eq, ← hrun]
    cases s.tree.root <;> rfl
  obtain ⟨jt', hyields, htracks⟩ := tryOutermost_tracks h hq fwd hx jt
  have hpoints := (htracks.joins hq (placed_of_stands hit)).points hit
  rw [IterOperation.run, IterOperation.attempt]
  exact .bind (.step hyields (.ret (Eq.refl (jt', Progress.done Response.moved))))
    fun r hr => hr ▸ .ret ⟨c, hpoints, hc⟩

/-- `seek`. -/
theorem seek_points (hdead : ¬ DeadEnd s.tree.Keys (Db.view U64Key.make k) fwd) (rounds : Nat)
    (jt : OlcIterator) :
    Comes o (fun r => ∃ c, o.Points s.tree r.1 c ∧
        Radix.Foremost (Toward fwd) (fromKey m fwd k) c)
      ((IterOperation.seek (U64Key.make k) fwd).run s.next (rounds + 1) jt) := by
  obtain ⟨⟨jt', r⟩, hyields, found, it, c, hr, -, htracks, hit, hc⟩ :=
    trySeek_points h hrep hq fwd hdead jt
  obtain rfl : r = some found := hr
  have hpoints := (htracks.joins hq (placed_of_stands hit)).points hit
  rw [IterOperation.run, IterOperation.attempt]
  exact .bind (.step hyields (.ret (Eq.refl (jt', Progress.done (Response.sought found)))))
    fun r hr => hr ▸ .ret ⟨c, hpoints, hc⟩

/-- A failed `next` or `prior` seeks the key of its leaf, and goes on from it if it is still there. -/
theorem resume_points (hdead : ¬ DeadEnd s.tree.Keys (Db.view U64Key.make k) fwd) (rounds : Nat)
    (jt : OlcIterator) :
    Comes o (fun r => ∃ c, o.Points s.tree r.1 c ∧
        Radix.Follows (Toward fwd) (Iterator.stored m) (some k) c)
      ((IterOperation.resume fwd (U64Key.make k)).run s.next (rounds + 1) jt) := by
  obtain ⟨⟨jt', r⟩, hyields, found, it, c, hr, hfound, htracks, hit, hc⟩ :=
    trySeek_points h hrep hq fwd hdead jt
  obtain rfl : r = some found := hr
  have hplaced := placed_of_stands hit
  rw [IterOperation.run, IterOperation.attempt]
  cases found with
  | false =>
    -- The key is gone: the seek has come to the first one beyond it.
    have hk : k ∉ Iterator.stored m := fun hk => Bool.false_ne_true (hfound.mpr hk)
    have hset : fromKey m fwd k = {b | b ∈ Iterator.stored m ∧ Toward fwd k b} := by
      ext b
      refine and_congr_right fun hb => or_iff_right ?_
      rintro rfl
      exact hk hb
    have hpoints := (htracks.joins hq hplaced).points hit
    have hnext : Radix.Follows (Toward fwd) (Iterator.stored m) (some k) c := by
      show Radix.Foremost _ _ _
      rw [← hset]
      exact hc
    exact .bind (.step hyields (.ret (Eq.refl (jt', Progress.done Response.moved))))
      fun r hr => hr ▸ .ret ⟨c, hpoints, hnext⟩
  | true =>
    have hk : k ∈ fromKey m fwd k := ⟨hfound.mp rfl, .inl rfl⟩
    obtain rfl : c = some k := by
      refine hc.unique Iterator.toward_asymm ⟨hk, fun b hb => ?_⟩
      exact hb.2
    obtain ⟨it', c', hx, hit', hnext⟩ := hit.advance h hrep fwd
    obtain ⟨jt₂, hyields₂, htracks₂⟩ := tryAdvance_tracks h hq fwd htracks hplaced hx
    have hpoints := (htracks₂.joins hq (placed_of_stands hit')).points hit'
    exact .bind (.step hyields (.step hyields₂ (.ret (Eq.refl (jt₂, Progress.done Response.moved)))))
      fun r hr => hr ▸ .ret ⟨c', hpoints, hnext⟩

/-- `next` and `prior` lead on to the first stored key beyond that of the leaf, which may have been
    removed. -/
theorem advance_points (hlingers : o.Lingers s.tree jt (Db.view U64Key.make k) v)
    (hdead : ¬ DeadEnd s.tree.Keys (Db.view U64Key.make k) fwd) (rounds : Nat) :
    Comes o (fun r => ∃ c, o.Points s.tree r.1 c ∧
        Radix.Follows (Toward fwd) (Iterator.stored m) (some k) c)
      ((IterOperation.advance fwd : IterOperation U64Key).run s.next (rounds + 2) jt) := by
  obtain ⟨⟨jt', ok⟩, hyields, hjoins⟩ := tryAdvance_joins h.tree hq fwd hlingers h.heightLE
  obtain ⟨e, stack, hstack, hleaf, -⟩ := hlingers.at_leaf
  have htype : e.node.type = .leaf := (Tree.deref_eq_some_iff.mp hleaf).2.symm
  have hkey : (readKey e.node).Yields o (.ok (Db.view U64Key.make k)) o := yields_readKey_mem hleaf
  rw [hstack] at hyields
  rw [IterOperation.run, IterOperation.attempt, hstack]
  dsimp only
  cases ok with
  | false =>
    have hresume := resume_points h hrep hq fwd hdead rounds jt'
    rw [← ofKeyView_view k] at hresume
    exact .bind (.lift (assertThat_pos htype) (.step hkey (.step hyields (.ret (Eq.refl
      (jt', Progress.again (IterOperation.resume fwd
        (StoredKey.ofKeyView (Db.view U64Key.make k) : U64Key))))))))
      fun r hr => hr ▸ hresume
  | true =>
    obtain ⟨it, it', hon, hx, hjoined⟩ := hjoins rfl
    have hit : it.Stands s (some k) := ⟨v, hon⟩
    obtain ⟨it'', c, hx', hit', hnext⟩ := hit.advance h hrep fwd
    obtain rfl := Except.ok.inj (hx.symm.trans hx')
    exact .bind (.lift (assertThat_pos htype) (.step hkey (.step hyields
      (.ret (Eq.refl (jt', Progress.done Response.moved))))))
      fun r hr => hr ▸ .ret ⟨c, hjoined.points hit', hnext⟩

end Operations

end OlcDb

end Unodb
