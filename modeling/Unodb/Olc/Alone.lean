import Unodb.Db.Keybuf
import Unodb.Olc.Iterator

/-!
# An iterator of `olc_db` that no other thread disturbs

While no thread changes the tree, the locks of its nodes keep their versions, and the attempts of an
iterator of `olc_db` do what the functions of the iterator of `db` do.
-/

namespace Unodb

/-- The entry on top of a path. -/
theorem OnPath.exists_below {t : Tree} {e : StackEntry} {stack : List StackEntry}
    {slot : Radix.Slot NodePtr UInt8} (hpath : OnPath t (e :: stack) slot) :
    ∃ slot₀ n, OnPath t stack slot₀ ∧ t.graph.read slot₀ = some e.node ∧
      t.deref e.node = some (.inode n) ∧ n.IsResult ⟨e.keyByte, e.childIndex, e.keyPrefix⟩ := by
  cases hpath with
  | child hpath₀ hread hp hres => exact ⟨_, _, hpath₀, hread, hp, hres⟩

/-- The iterator without the versions. -/
def OlcIterator.plain (it : OlcIterator) : Iterator :=
  ⟨it.stack.map OlcStackEntry.toStackEntry, it.keybuf⟩

namespace OlcDb

/-- An `olc_db` with the tree of `s` and no thread that writes to it.  Nodes that were unlinked may
    still be in memory. -/
structure Quiet (o : OlcDb sizes) (s : Db dbSizes) : Prop where
  root_eq : o.mem.root = s.tree.root
  heap_eq : ∀ {a body}, s.tree.heap a = some body → o.mem.heap a = some body
  root_free : ∃ version, o.lock .root = .free version
  node_free : ∀ {a body}, s.tree.heap a = some body → ∃ version, o.lock (.node a) = .free version

/-- The `olc_db` with the tree of a `db` and no thread at work. -/
def still (s : Db dbSizes) : OlcDb sizes where
  mem := s.tree
  lock _ := .free 0
  next := s.next
  stats := s.stats
  retired := []

theorem still_quiet (s : Db dbSizes) : (still s : OlcDb sizes).Quiet s where
  root_eq := rfl
  heap_eq h := h
  root_free := ⟨0, rfl⟩
  node_free _ := ⟨0, rfl⟩

/-- The versions on the stack are those of the locks. -/
def Fresh (o : OlcDb sizes) (stack : List OlcStackEntry) : Prop := ∀ e ∈ stack, o.Valid e.section

theorem Fresh.tail {o : OlcDb sizes} {e : OlcStackEntry} {stack : List OlcStackEntry}
    (h : o.Fresh (e :: stack)) : o.Fresh stack := fun e' he' => h e' (List.mem_cons_of_mem e he')

theorem Fresh.cons {o : OlcDb sizes} {e : OlcStackEntry} {stack : List OlcStackEntry}
    (h : o.Fresh stack) (he : o.Valid e.section) : o.Fresh (e :: stack) := by
  intro e' he'
  rcases List.mem_cons.mp he' with rfl | he'
  · exact he
  · exact h e' he'

/-! ## 1. Actions without interference -/

section Actions

variable {o : OlcDb sizes} {s : Db dbSizes} {cs : CriticalSection} {p : NodePtr} {β : Type}

theorem yields_tryReadLock {l : Site} {version : Nat} (h : o.lock l = .free version) :
    (tryReadLock l).Yields o (.ok (some ⟨l, version⟩)) o :=
  Prog.Yields.action fun _ => by simp only [h]

theorem yields_check (h : o.Valid cs) : (check cs).Yields o (.ok true) o :=
  Prog.Yields.action fun _ => by
    show some (decide (o.Valid cs), o) = _
    rw [decide_eq_true h]

theorem yields_loadRoot : loadRoot.Yields o (.ok o.mem.root) o := Prog.Yields.action fun _ => rfl

theorem yields_tryAct {f : Choice → OlcDb sizes → Except Fault (β × OlcDb sizes)} {b : β}
    (h : ∀ c, f c o = .ok (b, o)) : (tryAct f).Yields o (.ok b) o :=
  Prog.Yields.bind (Prog.Yields.action (a := .ok b) fun c => by rw [h c]) (Prog.Yields.lift (.ok b) o)

theorem Quiet.deref (hq : o.Quiet s) {body : Body} (hp : s.tree.deref p = some body) :
    o.mem.deref p = some body := by
  obtain ⟨hheap, htype⟩ := Tree.deref_eq_some_iff.mp hp
  exact Tree.deref_eq_some_iff.mpr ⟨hq.heap_eq hheap, htype⟩

theorem Quiet.readInode (hq : o.Quiet s) {n : INode NodePtr}
    (hp : s.tree.deref p = some (.inode n)) : o.mem.readInode p = .ok n :=
  Tree.readInode_ok (hq.deref hp)

theorem yields_reading (hq : o.Quiet s) (hcs : o.Valid cs) {n : INode NodePtr}
    (hp : s.tree.deref p = some (.inode n)) (f : INode NodePtr → β) :
    (reading [cs] p f).Yields o (.ok (f n)) o := by
  refine yields_tryAct fun c => ?_
  rw [hq.readInode hp]
  show Except.ok (f (o.view c [cs] n), o) = _
  rw [view, if_pos]
  intro cs' hcs'
  rw [List.mem_singleton.mp hcs']
  exact hcs

theorem yields_readKey_mem {k v : List UInt8} (hp : o.mem.deref p = some (.leaf k v)) :
    (readKey p).Yields o (.ok k) o := by
  refine yields_tryAct fun c => ?_
  rw [Tree.readLeaf_ok hp]
  rfl

theorem yields_readLeaf_mem {k v : List UInt8} (hp : o.mem.deref p = some (.leaf k v)) :
    (readLeaf p).Yields o (.ok (k, v)) o := by
  refine yields_tryAct fun c => ?_
  rw [Tree.readLeaf_ok hp]
  rfl

theorem yields_readKey (hq : o.Quiet s) {k v : List UInt8}
    (hp : s.tree.deref p = some (.leaf k v)) : (readKey p).Yields o (.ok k) o :=
  yields_readKey_mem (hq.deref hp)

theorem yields_readLeaf (hq : o.Quiet s) {k v : List UInt8}
    (hp : s.tree.deref p = some (.leaf k v)) : (readLeaf p).Yields o (.ok (k, v)) o :=
  yields_readLeaf_mem (hq.deref hp)

theorem yields_loadChild (hq : o.Quiet s) (hcs : o.Valid cs) {n : INode NodePtr}
    (hp : s.tree.deref p = some (.inode n)) (i : Nat) :
    (loadChild cs (.child p.addr i)).Yields o (.ok (n.slot i)) o := by
  obtain ⟨hheap, -⟩ := Tree.deref_eq_some_iff.mp hp
  refine yields_tryAct fun c => ?_
  simp only [hq.heap_eq hheap]
  rw [view, if_pos]
  intro cs' hcs'
  rw [List.mem_singleton.mp hcs']
  exact hcs

end Actions

/-! ## 2. Simulation -/

/-- Alone the program leaves the state as it is and comes to a result related to `x`, or both end
    with a fault. -/
def Simulates {α β : Type} (o : OlcDb sizes) (R : α → β → Prop) (x : Except Fault α)
    (p : OlcM sizes β) : Prop :=
  ∃ r, p.Yields o r o ∧
    ((∃ a b, x = .ok a ∧ r = .ok b ∧ R a b) ∨ ∃ e e', x = .error e ∧ r = .error e')

namespace Simulates

variable {α β γ δ : Type} {o : OlcDb sizes} {R : α → β → Prop} {R' : γ → δ → Prop} {x : Except Fault α}

theorem ret {a : α} {b : β} (h : R a b) : Simulates o R (.ok a) (Prog.ret b) :=
  ⟨_, Prog.Yields.ret b o, .inl ⟨a, b, rfl, rfl, h⟩⟩

theorem throw {e e' : Fault} : Simulates o R (.error e) (Prog.throw e') :=
  ⟨_, Prog.Yields.throw e' o, .inr ⟨e, e', rfl, rfl⟩⟩

/-- An action that only the program of `olc_db` has. -/
theorem step {q : OlcM sizes γ} {c : γ} {k : γ → OlcM sizes β} (hq : q.Yields o (.ok c) o)
    (h : Simulates o R x (k c)) : Simulates o R x (q >>= k) := by
  obtain ⟨r, hr, hagree⟩ := h
  exact ⟨r, hq.bind hr, hagree⟩

/-- A check that succeeds. -/
theorem check {cs : CriticalSection} {p p' : OlcM sizes β} (hcs : o.Valid cs) (h : Simulates o R x p) :
    Simulates o R x (OlcDb.check cs >>= fun ok => if ok then p else p') :=
  step (yields_check hcs) h

/-- A computation that both have. -/
theorem lift {y : Except Fault γ} {f : γ → Except Fault α} {k : γ → OlcM sizes β}
    (h : ∀ c, y = .ok c → Simulates o R (f c) (k c)) :
    Simulates o R (y >>= f) (Prog.lift y >>= k) := by
  cases y with
  | ok c => exact h c rfl
  | error e => exact throw

theorem bind {y : Except Fault γ} {p : OlcM sizes δ} {f : γ → Except Fault α} {k : δ → OlcM sizes β}
    (h : Simulates o R' y p) (hk : ∀ c d, y = .ok c → R' c d → Simulates o R (f c) (k d)) :
    Simulates o R (y >>= f) (p >>= k) := by
  obtain ⟨r, hr, ⟨c, d, rfl, rfl, hcd⟩ | ⟨e, e', rfl, rfl⟩⟩ := h
  · obtain ⟨r', hr', hagree⟩ := hk c d rfl hcd
    exact ⟨r', hr.bind hr', hagree⟩
  · exact ⟨_, hr.bind_error, .inr ⟨e, e', rfl, rfl⟩⟩

/-- What only the program of `olc_db` does at the end. -/
theorem andThen {p : OlcM sizes δ} {k : δ → OlcM sizes β} {S : α → δ → Prop} (h : Simulates o S x p)
    (hk : ∀ a d, x = .ok a → S a d → Simulates o R (.ok a) (k d)) : Simulates o R x (p >>= k) := by
  obtain ⟨r, hr, ⟨a, d, rfl, rfl, had⟩ | ⟨e, e', rfl, rfl⟩⟩ := h
  · obtain ⟨r', hr', hagree⟩ := hk a d rfl had
    exact ⟨r', hr.bind hr', hagree⟩
  · exact ⟨_, hr.bind_error, .inr ⟨e, e', rfl, rfl⟩⟩

end Simulates

/-- An attempt has moved the iterator as the function of `db` does. -/
def Moved (o : OlcDb sizes) (it : Iterator) (r : Tried) : Prop :=
  r.2 = true ∧ r.1.plain = it ∧ o.Fresh r.1.stack

/-- An attempt to seek has ended as the function of `db` does. -/
def Found (o : OlcDb sizes) (it : Iterator × Bool) (r : Sought) : Prop :=
  r.2 = some it.2 ∧ r.1.plain = it.1 ∧ o.Fresh r.1.stack

theorem Moved.unmatched {o : OlcDb sizes} {it : Iterator} {r : Tried} (h : o.Moved it r) :
    o.Found (it, false) (unmatched r) :=
  ⟨by rw [OlcDb.unmatched, if_pos h.1], h.2⟩

/-! ## 3. Descents -/

section Descents

variable {K : Set (List UInt8)} {path : NodePtr → List UInt8} {s : Db dbSizes} {o : OlcDb sizes}
  {slot : Radix.Slot NodePtr UInt8} {p : NodePtr} {parentCs : CriticalSection} {jt : OlcIterator}

/-- The iterator with an entry pushed. -/
def pushed (jt : OlcIterator) (p : NodePtr) (e : IterResult) (cs : CriticalSection) : OlcIterator where
  stack := ⟨⟨p, e.keyByte, e.childIndex, e.keyPrefix⟩, cs.version⟩ :: jt.stack
  keybuf := jt.keybuf ++ e.keyPrefix.bytes ++ [e.keyByte]

theorem tryPush_ok {e : IterResult} {cs : CriticalSection} (htype : p.type ≠ .leaf) :
    jt.tryPush p e cs = .ok (pushed jt p e cs) := by
  rw [OlcIterator.tryPush, assertThat_pos htype]
  rfl

theorem Fresh.pushed (hfresh : o.Fresh jt.stack) {version : Nat}
    (hcs : o.Valid ⟨.node p.addr, version⟩) (e : IterResult) :
    o.Fresh (pushed jt p e ⟨.node p.addr, version⟩).stack :=
  hfresh.cons hcs

theorem push_plain (jt : OlcIterator) {e : IterResult} (cs : CriticalSection)
    (htype : p.type ≠ .leaf) : jt.plain.push p e = .ok (pushed jt p e cs).plain :=
  Iterator.push_ok e htype

variable (h : s.tree.Inv K path) (hq : o.Quiet s)
include h hq

theorem lock_free (hread : s.tree.graph.read slot = some p) :
    ∃ version, o.lock (.node p.addr) = .free version := by
  obtain ⟨m, hm, -⟩ := h.graph.live hread
  obtain ⟨body, hbody, -⟩ := Option.map_eq_some_iff.mp hm
  exact hq.node_free (Tree.deref_eq_some_iff.mp hbody).1

theorem traversalLoop_simulates {fwd : Bool} {fuel : Nat}
    (hread : s.tree.graph.read slot = some p) (hcs : o.Valid parentCs) (hjt : o.Fresh jt.stack) :
    Simulates o (Moved o) (Iterator.traversal s.tree fwd fuel p jt.plain)
      (traversalLoop fwd fuel p parentCs jt) := by
  induction fuel generalizing slot p parentCs jt with
  | zero => exact .throw
  | succ fuel ih =>
    obtain ⟨version, hlock⟩ := lock_free h hq hread
    have hnode : o.Valid ⟨.node p.addr, version⟩ := hlock
    rw [Iterator.traversal, traversalLoop]
    refine .step (yields_tryReadLock hlock) (.check hcs ?_)
    by_cases htype : p.type = .leaf
    · rw [if_pos htype, if_pos htype]
      exact .step (yields_check hnode) (.ret ⟨rfl, rfl, hjt.cons hnode⟩)
    · obtain ⟨n, hp, hwf, -⟩ := h.inode_of_tag hread htype
      obtain ⟨e, hok, hres, -⟩ := hwf.outermost fwd
      obtain ⟨c, hc, hget⟩ := hwf.getChild_of_isResult hres
      have hread' : s.tree.graph.read (.child p e.keyByte) = some c := by
        rw [Tree.graph_read_child hp, hc]
      rw [if_neg htype, if_neg htype, Tree.readInode_ok hp]
      refine .step (yields_reading hq hnode hp _) (.check hnode ?_)
      refine .lift fun e' he' => ?_
      obtain rfl : e = e' := Except.ok.inj (hok.symm.trans he')
      rw [push_plain jt ⟨.node p.addr, version⟩ htype, tryPush_ok htype]
      refine .step (Prog.Yields.lift _ o) ?_
      refine .step (yields_reading hq hnode hp _) (.check hnode ?_)
      simp only [bind, Except.bind, hget]
      exact ih hread' hnode (hjt.cons hnode)

theorem tryTraversal_simulates (fwd : Bool) (jt : OlcIterator) {fuel : Nat}
    (hread : s.tree.graph.read slot = some p) (hcs : o.Valid parentCs)
    (hjt : o.Fresh jt.stack) :
    Simulates o (Moved o) (Iterator.traversal s.tree fwd fuel p jt.plain)
      (tryTraversal fuel fwd p parentCs jt) :=
  .check hcs (traversalLoop_simulates h hq hread hcs hjt)

/-- `try_first` and `try_last`, with an empty key buffer. -/
theorem tryOutermost_simulates (fwd : Bool) (hkeybuf : jt.keybuf = []) :
    Simulates o (Moved o) (if fwd then Iterator.first s else Iterator.last s)
      (tryOutermost s.next fwd jt) := by
  obtain ⟨version, hlock⟩ := hq.root_free
  have hroot : o.Valid ⟨.root, version⟩ := hlock
  have hnil : o.Fresh [] := fun e he => absurd he List.not_mem_nil
  refine .step (yields_tryReadLock hlock) (.step yields_loadRoot ?_)
  rw [hq.root_eq, Iterator.first, Iterator.last]
  cases hread : s.tree.root with
  | none =>
    have hplain : jt.invalidate.plain = .invalid := by
      rw [OlcIterator.invalidate, OlcIterator.plain, hkeybuf]
      rfl
    refine .step (yields_check hroot) ?_
    cases fwd <;> exact .ret ⟨rfl, hplain, hnil⟩
  | some root =>
    have hread' : s.tree.graph.read .root = some root := hread
    have hdown : Simulates o (Moved o) (Iterator.traversal s.tree fwd s.next root jt.invalidate.plain)
        (tryTraversal s.next fwd root ⟨.root, version⟩ jt.invalidate) :=
      tryTraversal_simulates h hq fwd jt.invalidate hread' hroot hnil
    rw [show jt.invalidate.plain = .invalid by
      rw [OlcIterator.invalidate, OlcIterator.plain, hkeybuf]; rfl] at hdown
    cases fwd <;> exact hdown

end Descents

/-! ## 4. Moves -/

section Moves

variable {K : Set (List UInt8)} {path : NodePtr → List UInt8} {s : Db dbSizes} {o : OlcDb sizes}
  {slot : Radix.Slot NodePtr UInt8} {stack : List OlcStackEntry} {keybuf : List UInt8}
  (h : s.tree.Inv K path) (hq : o.Quiet s) (fwd : Bool)
include h hq

/-- From a stack of inner entries. -/
theorem tryAdvance_inner_simulates
    (hpath : OnPath s.tree (stack.map OlcStackEntry.toStackEntry) slot) (hfresh : o.Fresh stack) :
    Simulates o (Moved o)
      (Iterator.advance s fwd (stack.map OlcStackEntry.toStackEntry) keybuf)
      (tryAdvance s.next fwd stack keybuf) := by
  induction stack generalizing slot keybuf with
  | nil => exact .ret ⟨rfl, rfl, hfresh⟩
  | cons e stack ih =>
    have he : o.Valid e.section := hfresh e List.mem_cons_self
    rw [List.map_cons] at hpath ⊢
    obtain ⟨slot₀, n, hpath₀, hread, hp, hres⟩ := hpath.exists_below
    have htype : e.node.type ≠ .leaf := (Tree.deref_eq_some_iff.mp hp).2 ▸ n.type_ne_leaf
    have hwf : n.WF := h.wf (Tree.deref_eq_some_iff.mp hp).1
    obtain ⟨i, hfind⟩ := hres.find
    obtain ⟨r, hsib, hr⟩ := hwf.sibling fwd hfind
    rw [Iterator.advance, tryAdvance, if_neg htype, Tree.readInode_ok hp]
    refine .check he ?_
    rw [if_neg htype]
    refine .step (yields_reading hq he hp _) (.check he (.lift fun r' hr' => ?_))
    obtain rfl : r = r' := Except.ok.inj (hsib.symm.trans hr')
    cases r with
    | none => exact .lift fun keybuf' hpop => .check he (ih hpath₀ hfresh.tail)
    | some e2 =>
      obtain ⟨c, hc, hget⟩ := hwf.getChild_of_isResult hr.1
      have hread' : s.tree.graph.read (.child e.node e2.keyByte) = some c := by
        rw [Tree.graph_read_child hp, hc]
      refine .lift fun keybuf' hpop => ?_
      rw [show Iterator.push ⟨stack.map OlcStackEntry.toStackEntry, keybuf'⟩ e.node e2 = _ from
        push_plain ⟨stack, keybuf'⟩ e.section htype, tryPush_ok htype]
      refine .step (Prog.Yields.lift _ o) (.step (yields_reading hq he hp _) (.check he ?_))
      simp only [bind, Except.bind, hget]
      exact tryTraversal_simulates h hq fwd _ hread' he (hfresh.tail.cons he)

/-- `try_next` and `try_prior`, from a leaf or at the end. -/
theorem tryAdvance_simulates {jt : OlcIterator} (hit : jt.plain.Placed s.tree)
    (hfresh : o.Fresh jt.stack) :
    Simulates o (Moved o) (Iterator.advance s fwd jt.plain.stack jt.plain.keybuf)
      (tryAdvance s.next fwd jt.stack jt.keybuf) := by
  obtain ⟨stack, keybuf⟩ := jt
  cases stack with
  | nil => exact .ret ⟨rfl, rfl, hfresh⟩
  | cons e stack =>
    rcases hit with hnil | ⟨k, v, hon⟩
    · exact absurd hnil (List.cons_ne_nil _ _)
    · obtain ⟨stack₀, slot, p, hstack, hpath, -, hp⟩ := hon.at_leaf
      obtain ⟨hentry, hrest⟩ := List.cons.inj hstack
      have he : o.Valid e.section := hfresh e List.mem_cons_self
      have htype : e.node.type = .leaf := by
        rw [hentry]
        exact (Tree.deref_eq_some_iff.mp hp).2.symm
      have hpath' : OnPath s.tree (stack.map OlcStackEntry.toStackEntry) slot := hrest ▸ hpath
      show Simulates o (Moved o) (Iterator.advance s fwd
        (e.toStackEntry :: stack.map OlcStackEntry.toStackEntry) keybuf) _
      rw [Iterator.advance, if_pos htype, tryAdvance]
      refine .check he ?_
      rw [if_pos htype]
      exact .lift fun keybuf' hpop =>
        .check he (tryAdvance_inner_simulates h hq fwd hpath' hfresh.tail)

theorem tryUnwind_simulates
    (hpath : OnPath s.tree (stack.map OlcStackEntry.toStackEntry) slot) (hfresh : o.Fresh stack) :
    Simulates o (Moved o)
      (Iterator.unwind s fwd (stack.map OlcStackEntry.toStackEntry) keybuf)
      (tryUnwind s.next fwd stack keybuf) := by
  induction stack generalizing slot keybuf with
  | nil => exact .ret ⟨rfl, rfl, hfresh⟩
  | cons e stack ih =>
    have he : o.Valid e.section := hfresh e List.mem_cons_self
    rw [List.map_cons] at hpath ⊢
    obtain ⟨slot₀, n, hpath₀, hread, hp, hres⟩ := hpath.exists_below
    have hwf : n.WF := h.wf (Tree.deref_eq_some_iff.mp hp).1
    rw [Iterator.unwind, tryUnwind, Tree.readInode_ok hp]
    refine .check he (.step (yields_reading hq he hp _) (.lift fun r hr => ?_))
    cases r with
    | none => exact .lift fun keybuf' hpop => .check he (ih hpath₀ hfresh.tail)
    | some e2 =>
      obtain ⟨c, hc, hget⟩ := hwf.getChild_of_isResult hres
      have hread' : s.tree.graph.read (.child e.node e.keyByte) = some c := by
        rw [Tree.graph_read_child hp, hc]
      refine .step (yields_reading hq he hp _) (.check he ?_)
      simp only [bind, hget]
      exact tryTraversal_simulates h hq fwd ⟨e :: stack, keybuf⟩ hread' he hfresh

end Moves

/-! ## 5. `seek` -/

section Seek

variable {κ : Type} [ArtKey κ] {K : Set (List UInt8)} {path : NodePtr → List UInt8}
  {lost : NodeType → Nat} {s : Db dbSizes} {o : OlcDb sizes} {slot : Radix.Slot NodePtr UInt8} {p : NodePtr}
  {n : INode NodePtr} {parentCs : CriticalSection} {version : Nat} {jt : OlcIterator}
  (h : s.Inv K path lost) (hq : o.Quiet s) (k : κ) (fwd : Bool)
  (hpath : OnPath s.tree jt.plain.stack slot)
  (hbuf : Iterator.prefixBytes jt.plain.stack ≤ jt.plain.keybuf.length)
  (hfresh : o.Fresh jt.stack) (hread : s.tree.graph.read slot = some p)
  (hnode : o.lock (.node p.addr) = .free version)
include h hq hpath hbuf hfresh hread hnode

theorem seekLeaf_simulates {fuel : Nat} {rem : κ} (htype : p.type = .leaf) :
    Simulates o (Found o) (Iterator.seekLoop s k fwd (fuel + 1) p rem jt.plain)
      (seekLeaf s.next k fwd p ⟨.node p.addr, version⟩ jt) := by
  obtain ⟨k', v', hp, -⟩ := h.tree.leaf_of_tag hread htype
  have hcs : o.Valid ⟨.node p.addr, version⟩ := hnode
  have hfresh' : o.Fresh (jt.tryPushLeaf p ⟨.node p.addr, version⟩).stack := hfresh.cons hcs
  have hon : (jt.tryPushLeaf p ⟨.node p.addr, version⟩).plain.On s.tree k' v' := by
    refine ⟨⟨jt.plain.stack, slot, p, rfl, hpath, hread, hp⟩, ?_⟩
    show Iterator.prefixBytes (Iterator.leafEntry p :: jt.plain.stack) ≤ _
    rw [Iterator.prefixBytes_cons, Iterator.leafEntry_length, Nat.zero_add]
    exact hbuf
  rw [Iterator.seekLoop, if_pos htype, Tree.readLeaf_ok hp]
  refine .step (yields_readKey hq hp) (.check hcs ?_)
  show Simulates o (Found o) (if ArtKey.cmp k k' = 0 then _ else _) _
  by_cases heq : ArtKey.cmp k k' = 0
  · rw [if_pos heq, if_pos heq]
    exact .ret ⟨rfl, rfl, hfresh'⟩
  · rw [if_neg heq, if_neg heq]
    by_cases hlt : if fwd then ArtKey.cmp k k' < 0 else 0 < ArtKey.cmp k k'
    · rw [if_pos hlt, if_pos hlt]
      exact .ret ⟨rfl, rfl, hfresh'⟩
    · rw [if_neg hlt, if_neg hlt]
      exact .bind (tryAdvance_simulates h.tree hq fwd (.inr ⟨k', v', hon⟩) hfresh')
        fun _ _ _ hmoved => .ret hmoved.unmatched

theorem seekFork_simulates {c b : UInt8} (hcs : o.Valid parentCs)
    (hp : s.tree.deref p = some (.inode n)) :
    Simulates o (Found o)
      (if c < b then do
        let it ← Iterator.leftMostTraversal s p jt.plain
        if fwd then return (it, false) else return (← Iterator.prior s it, false)
      else do
        let it ← Iterator.rightMostTraversal s p jt.plain
        if fwd then return (← Iterator.next s it, false) else return (it, false))
      (seekFork s.next fwd c b p parentCs ⟨.node p.addr, version⟩ jt) := by
  have hcs' : o.Valid ⟨.node p.addr, version⟩ := hnode
  have hrest : ∀ {dir it} {r : Tried}, Iterator.traversal s.tree dir s.next p jt.plain = .ok it →
      o.Moved it r → it.Placed s.tree := by
    intro dir it r hrun _
    obtain ⟨it', k', v', hrun', hon, -⟩ := Iterator.traversal_spec h.tree dir (h.heightLE hp) hpath
      hread hbuf
    cases hrun.symm.trans hrun'
    exact .inr ⟨k', v', hon⟩
  -- The side of the node is the direction, or else the iterator moves on.
  have hside : ∀ dir, decide (c < b) = dir → Simulates o (Found o)
      (Iterator.traversal s.tree dir s.next p jt.plain >>= fun it =>
        if fwd = dir then return (it, false)
        else return (← Iterator.advance s fwd it.stack it.keybuf, false))
      (seekFork s.next fwd c b p parentCs ⟨.node p.addr, version⟩ jt) := by
    rintro dir rfl
    refine .bind (tryTraversal_simulates h.tree hq _ jt hread hcs hfresh) fun it r hrun hmoved => ?_
    refine .check hcs' ?_
    rw [if_pos hmoved.1]
    by_cases hdir : fwd = decide (c < b)
    · rw [if_pos hdir, if_pos hdir]
      exact .ret ⟨rfl, hmoved.2⟩
    · rw [if_neg hdir, if_neg hdir]
      have hplaced := hrest hrun hmoved
      rw [← hmoved.2.1] at hplaced ⊢
      exact .bind (tryAdvance_simulates h.tree hq fwd hplaced hmoved.2.2)
        fun _ _ _ hmoved' => .ret hmoved'.unmatched
  rw [Iterator.leftMostTraversal, Iterator.rightMostTraversal]
  unfold Iterator.next Iterator.prior
  by_cases hlt : c < b
  · rw [if_pos hlt]
    have hleft := hside true (decide_eq_true hlt)
    cases fwd with
    | true =>
      simp only [↓reduceIte] at hleft ⊢
      exact hleft
    | false => exact hleft
  · rw [if_neg hlt]
    have hright := hside false (decide_eq_false hlt)
    cases fwd with
    | true => exact hright
    | false =>
      simp only [↓reduceIte, Bool.false_eq_true] at hright ⊢
      exact hright

omit hread in
theorem seekGap_simulates {b : UInt8} (hcs : o.Valid parentCs)
    (hp : s.tree.deref p = some (.inode n)) (hb : n.child b = none) :
    Simulates o (Found o)
      (match n.nearest fwd b with
      | none =>
        match jt.plain.stack with
        | [] => return (jt.plain, false)
        | e :: stack =>
          return (← Iterator.unwind s fwd stack (← Iterator.popKeybuf jt.plain.keybuf e), false)
      | some tmp =>
        match n.getChild tmp.childIndex with
        | some child => do
          let it ← jt.plain.push p tmp
          return (← Iterator.traversal s.tree fwd s.next child it, false)
        | none => throw .assertion)
      (seekGap s.next fwd b p parentCs ⟨.node p.addr, version⟩ jt) := by
  have hcs' : o.Valid ⟨.node p.addr, version⟩ := hnode
  have htype : p.type ≠ .leaf := (Tree.deref_eq_some_iff.mp hp).2 ▸ n.type_ne_leaf
  have hwf : n.WF := h.tree.wf (Tree.deref_eq_some_iff.mp hp).1
  have hnearest := hwf.nearest fwd hb
  refine .step (yields_reading hq hcs' hp _) ?_
  cases hnear : n.nearest fwd b with
  | none =>
    refine .check hcs (.check hcs' ?_)
    obtain ⟨stack, keybuf⟩ := jt
    cases stack with
    | nil => exact .ret ⟨rfl, rfl, hfresh⟩
    | cons e stack =>
      obtain ⟨slot₀, -, hpath₀, -⟩ := OnPath.exists_below hpath
      refine .lift fun keybuf' hpop => ?_
      exact .bind (tryUnwind_simulates h.tree hq fwd hpath₀ hfresh.tail)
        fun _ _ _ hmoved => .ret hmoved.unmatched
  | some tmp =>
    rw [hnear] at hnearest
    obtain ⟨c, hc, hget⟩ := hwf.getChild_of_isResult hnearest.1
    have hread' : s.tree.graph.read (.child p tmp.keyByte) = some c := by
      rw [Tree.graph_read_child hp, hc]
    refine .step (yields_reading hq hcs' hp _) (.check hcs' (.check hcs ?_))
    simp only [hget]
    rw [push_plain jt ⟨.node p.addr, version⟩ htype, tryPush_ok htype]
    refine .step (Prog.Yields.lift _ o) (.step (Prog.Yields.lift (.ok c) o) ?_)
    have hdown : Simulates o (Moved o) (Iterator.traversal s.tree fwd s.next c _)
        (tryTraversal s.next fwd c ⟨.node p.addr, version⟩ _) :=
      tryTraversal_simulates h.tree hq fwd _ hread' hcs' (hfresh.pushed hcs' tmp)
    exact hdown.bind fun _ _ _ hmoved => .ret hmoved.unmatched

omit hnode

theorem seekLoop_simulates {fuel : Nat} {rem : κ} (hcs : o.Valid parentCs) :
    Simulates o (Found o) (Iterator.seekLoop s k fwd fuel p rem jt.plain)
      (seekLoop s.next k fwd fuel p parentCs rem jt) := by
  induction fuel generalizing slot p parentCs rem jt with
  | zero => exact .throw
  | succ fuel ih =>
    obtain ⟨version, hnode⟩ := lock_free h.tree hq hread
    have hcs' : o.Valid ⟨.node p.addr, version⟩ := hnode
    rw [seekLoop]
    refine .step (yields_tryReadLock hnode) (.check hcs ?_)
    by_cases htype : p.type = .leaf
    · rw [if_pos htype]
      exact .check hcs (seekLeaf_simulates h hq k fwd hpath hbuf hfresh hread hnode htype)
    · obtain ⟨n, hp, hwf, -⟩ := h.tree.inode_of_tag hread htype
      rw [Iterator.seekLoop, if_neg htype, if_neg htype, Tree.readInode_ok hp]
      refine .step (yields_reading hq hcs' hp _) ?_
      show Simulates o (Found o) (if n.keyPrefix.getSharedLength _ < n.keyPrefix.length then _ else _)
        (if n.keyPrefix.getSharedLength _ < n.keyPrefix.length then _ else _)
      by_cases hlt : n.keyPrefix.getSharedLength (ArtKey.getU64 rem) < n.keyPrefix.length
      · rw [if_pos hlt, if_pos hlt]
        refine .lift fun c _ => .lift fun b _ => .lift fun _ _ => ?_
        exact seekFork_simulates h hq fwd hpath hbuf hfresh hread hnode hcs hp
      · rw [if_neg hlt, if_neg hlt]
        refine .lift fun rem1 _ => .lift fun b _ => ?_
        refine .step (yields_reading hq hcs' hp _) ?_
        cases hfind : n.findChild b with
        | none =>
          exact seekGap_simulates h hq fwd hpath hbuf hfresh hnode hcs hp
            ((hwf.findChild_eq_none_iff b).mp hfind)
        | some r =>
          obtain ⟨ci, i⟩ := r
          obtain ⟨q, hq', hslot, -⟩ := hwf.findChild_eq_some hfind
          have hread' : s.tree.graph.read (.child p b) = some q := by
            rw [Tree.graph_read_child hp, hq']
          have hload : s.tree.load (.child p.addr i) = some q := by
            rw [h.tree.load_eq (.child hp hfind), hread']
          have hres : n.IsResult ⟨b, ci, n.keyPrefix⟩ := ⟨⟨i, hfind⟩, rfl⟩
          show Simulates o (Found o) (jt.plain.push p ⟨b, ci, n.keyPrefix⟩ >>= _)
            (Prog.lift (jt.tryPush p ⟨b, ci, n.keyPrefix⟩ ⟨.node p.addr, version⟩) >>= _)
          rw [push_plain jt ⟨.node p.addr, version⟩ htype, tryPush_ok htype]
          refine .step (Prog.Yields.lift _ o) (.step (yields_loadChild hq hcs' hp i) ?_)
          show Simulates o (Found o) (s.tree.readSlot (.child p.addr i) >>= _) _
          rw [Tree.readSlot_ok hload]
          refine .lift fun rem2 _ => .check hcs' ?_
          rw [hslot]
          have hpath' : OnPath s.tree (pushed jt p ⟨b, ci, n.keyPrefix⟩
              ⟨.node p.addr, version⟩).plain.stack (.child p b) := hpath.child hread hp hres
          exact ih hpath' (Iterator.push_buffered p ⟨b, ci, n.keyPrefix⟩ hbuf)
            (hfresh.pushed hcs' ⟨b, ci, n.keyPrefix⟩) hread' hcs'

end Seek

/-- `try_seek`, with an empty key buffer. -/
theorem trySeek_simulates {κ : Type} [ArtKey κ] {K : Set (List UInt8)}
    {path : NodePtr → List UInt8} {lost : NodeType → Nat} {s : Db dbSizes} {o : OlcDb sizes}
    {jt : OlcIterator}
    (h : s.Inv K path lost) (hq : o.Quiet s) (k : κ) (fwd : Bool) (hkeybuf : jt.keybuf = []) :
    Simulates o (Found o) (Iterator.seek s k fwd) (trySeek s.next k fwd jt) := by
  obtain ⟨version, hlock⟩ := hq.root_free
  have hroot : o.Valid ⟨.root, version⟩ := hlock
  have hnil : o.Fresh [] := fun e he => absurd he List.not_mem_nil
  have hplain : jt.invalidate.plain = .invalid := by
    rw [OlcIterator.invalidate, OlcIterator.plain, hkeybuf]
    rfl
  refine .step (yields_tryReadLock hlock) (.step yields_loadRoot ?_)
  rw [hq.root_eq, Iterator.seek]
  cases hread : s.tree.root with
  | none => exact .check hroot (.ret ⟨rfl, hplain, hnil⟩)
  | some root =>
    have hread' : s.tree.graph.read .root = some root := hread
    refine .check hroot ?_
    rw [← hplain]
    exact seekLoop_simulates h hq k fwd .root (Nat.zero_le _) hnil hread' hroot

/-! ## 6. Operations -/

/-- An operation has left the iterator where the function of `db` leaves it. -/
def Carried (o : OlcDb sizes) (it : Iterator) (jt : OlcIterator) : Prop :=
  jt.plain = it ∧ o.Fresh jt.stack

/-- The first attempt is the last one. -/
def Ended {κ : Type} (o : OlcDb sizes) (it : Iterator) (r : OlcIterator × Progress (IterOperation κ)) :
    Prop :=
  o.Carried it r.1 ∧ ∃ response, r.2 = .done response

section Operations

variable {κ : Type} [StoredKey κ] {K : Set (List UInt8)} {path : NodePtr → List UInt8}
  {lost : NodeType → Nat} {s : Db dbSizes} {o : OlcDb sizes} {jt : OlcIterator}

theorem run_simulates {op : IterOperation κ} {x : Except Fault Iterator} {fuel rounds : Nat}
    (hattempt : Simulates o (Ended o) x (op.attempt fuel jt)) :
    Simulates o (fun it r => o.Carried it r.1) x (op.run fuel (rounds + 1) jt) := by
  refine hattempt.andThen fun it r _ hended => ?_
  obtain ⟨jt', progress⟩ := r
  obtain ⟨hcarried, response, hdone⟩ := hended
  dsimp only at hdone
  rw [hdone]
  exact .ret hcarried

variable (h : s.Inv K path lost) (hq : o.Quiet s) (fwd : Bool)
include h hq

theorem outermost_simulates (hkeybuf : jt.keybuf = []) :
    Simulates o (Ended o) (if fwd then Iterator.first s else Iterator.last s)
      ((IterOperation.outermost fwd : IterOperation κ).attempt s.next jt) :=
  (tryOutermost_simulates h.tree hq fwd hkeybuf).andThen fun _ _ _ hmoved =>
    .ret ⟨hmoved.2, .moved, if_pos hmoved.1⟩

theorem advance_simulates (hit : jt.plain.Placed s.tree) (hfresh : o.Fresh jt.stack) :
    Simulates o (Ended o) (Iterator.advance s fwd jt.plain.stack jt.plain.keybuf)
      ((IterOperation.advance fwd : IterOperation κ).attempt s.next jt) := by
  have hmove := tryAdvance_simulates h.tree hq fwd hit hfresh
  obtain ⟨stack, keybuf⟩ := jt
  cases stack with
  | nil => exact .ret ⟨⟨rfl, hfresh⟩, .moved, rfl⟩
  | cons e stack =>
    rcases hit with hnil | ⟨k, v, hon⟩
    · exact absurd hnil (List.cons_ne_nil _ _)
    · obtain ⟨stack₀, slot, p, hstack, -, -, hp⟩ := hon.at_leaf
      have hnode : e.node = p := congrArg StackEntry.node (List.cons.inj hstack).1
      have hleaf : e.node.type = .leaf := hnode ▸ (Tree.deref_eq_some_iff.mp hp).2.symm
      show Simulates o (Ended o) _ (Prog.lift (assertThat (e.node.type = .leaf)) >>= _)
      rw [assertThat_pos hleaf]
      refine .step (Prog.Yields.lift _ o) (.step (yields_readKey hq (hnode ▸ hp)) ?_)
      exact hmove.andThen fun it r _ hmoved => .ret ⟨hmoved.2, .moved, if_pos hmoved.1⟩

theorem seek_simulates (k : κ) (hkeybuf : jt.keybuf = []) :
    Simulates o (Ended o) ((Iterator.seek s k fwd).map Prod.fst)
      ((IterOperation.seek k fwd).attempt s.next jt) := by
  obtain ⟨r, hr, ⟨it, jt', hrun, rfl, hfound⟩ | ⟨e, e', hrun, rfl⟩⟩ :=
    trySeek_simulates h hq k fwd hkeybuf
  · obtain ⟨jt', m⟩ := jt'
    obtain ⟨hmatch, hcarried⟩ := hfound
    dsimp only at hmatch
    subst hmatch
    rw [hrun]
    exact .step hr (.ret ⟨hcarried, .sought it.2, rfl⟩)
  · rw [hrun]
    exact ⟨_, hr.bind_error, .inr ⟨e, e', rfl, rfl⟩⟩

end Operations

end OlcDb

end Unodb
