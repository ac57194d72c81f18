import Unodb.Db.Iterator
import Unodb.Db.Clear
import Unodb.Util.RadixOrder

/-!
# Where an iterator is

The stack of an iterator is the path from the root to a leaf.  The moves are specified by the keys
of the tree in the order of the direction: a traversal finds the first key below a node, and `next`
and `prior` find the first key beyond the current one.
-/

namespace Unodb

/-- The order of key bytes or of keys in a direction. -/
def Toward {α : Type} [LT α] (fwd : Bool) (a b : α) : Prop := if fwd then a < b else b < a

theorem Toward.irrefl {α : Type} [Preorder α] {fwd : Bool} (a : α) : ¬ Toward fwd a a := by
  unfold Toward
  cases fwd <;> simp

namespace INode

/-! ## 1. Steps on a node -/

section Steps

variable {P : Type} {n : INode P}

theorem FindsLeast.firstIn {s : Set UInt8} {e : IterResult} (h : n.FindsLeast s (some e)) :
    Radix.FirstIn (Toward true) (n.boundIn s) e.keyByte := by
  refine ⟨h.2.1, fun b hb => ?_⟩
  rcases lt_or_eq_of_le (h.2.2 hb) with hlt | heq
  · exact .inr hlt
  · exact .inl heq.symm

theorem FindsGreatest.firstIn {s : Set UInt8} {e : IterResult} (h : n.FindsGreatest s (some e)) :
    Radix.FirstIn (Toward false) (n.boundIn s) e.keyByte := by
  refine ⟨h.2.1, fun b hb => ?_⟩
  rcases lt_or_eq_of_le (h.2.2 hb) with hlt | heq
  · exact .inr hlt
  · exact .inl heq

/-- What a step of an iterator on a node finds: the first bound byte of a set, in the direction. -/
def Finds (n : INode P) (fwd : Bool) (s : Set UInt8) : Option IterResult → Prop
  | none => n.boundIn s = ∅
  | some e => n.IsResult e ∧ Radix.FirstIn (Toward fwd) (n.boundIn s) e.keyByte

theorem FindsLeast.finds {s : Set UInt8} {r : Option IterResult} (h : n.FindsLeast s r) :
    n.Finds true s r := by
  cases r with
  | none => exact h
  | some e => exact ⟨h.1, h.firstIn⟩

theorem FindsGreatest.finds {s : Set UInt8} {r : Option IterResult} (h : n.FindsGreatest s r) :
    n.Finds false s r := by
  cases r with
  | none => exact h
  | some e => exact ⟨h.1, h.firstIn⟩

variable (h : n.WF) (fwd : Bool)
include h

/-- `begin` and `last`. -/
theorem WF.outermost : ∃ e, n.outermost fwd = .ok e ∧ n.Finds fwd Set.univ (some e) := by
  cases fwd with
  | true =>
    obtain ⟨e, hok, he⟩ := h.begin
    exact ⟨e, hok, he.finds⟩
  | false =>
    obtain ⟨e, hok, he⟩ := h.last
    exact ⟨e, hok, he.finds⟩

/-- `next` and `prior`. -/
theorem WF.sibling {b : UInt8} {ci i : Nat} (hfind : n.findChild b = some (ci, i)) :
    ∃ r, n.sibling fwd ci = .ok r ∧ n.Finds fwd {a | Toward fwd b a} r := by
  cases fwd with
  | true =>
    obtain ⟨r, hok, hr⟩ := h.next hfind
    exact ⟨r, hok, hr.finds⟩
  | false =>
    obtain ⟨r, hok, hr⟩ := h.prior hfind
    exact ⟨r, hok, hr.finds⟩

omit fwd in
/-- The child of an iteration result. -/
theorem WF.getChild_of_isResult {e : IterResult} (he : n.IsResult e) :
    ∃ p, n.child e.keyByte = some p ∧ n.getChild e.childIndex = some p := by
  obtain ⟨i, hi⟩ := he.find
  obtain ⟨p, hp, -, hg⟩ := h.findChild_eq_some hi
  exact ⟨p, hp, hg⟩

end Steps

end INode

/-! ## 2. Stacks -/

/-- The entries of a stack lead from the root to a slot. -/
inductive OnPath (t : Tree) : List StackEntry → Radix.Slot NodePtr UInt8 → Prop where
  | root : OnPath t [] .root
  | child {stack : List StackEntry} {slot : Radix.Slot NodePtr UInt8} {p : NodePtr}
      {n : INode NodePtr} {e : IterResult} :
      OnPath t stack slot → t.graph.read slot = some p → t.deref p = some (.inode n) →
      n.IsResult e →
      OnPath t (⟨p, e.keyByte, e.childIndex, e.keyPrefix⟩ :: stack) (.child p e.keyByte)

namespace Iterator

/-- The number of prefix bytes that the entries of a stack will pop. -/
def prefixBytes (stack : List StackEntry) : Nat := (stack.map (·.keyPrefix.length)).sum

/-- The iterator is at the leaf with this key and value. -/
structure On (t : Tree) (it : Iterator) (k v : List UInt8) : Prop where
  at_leaf : ∃ stack slot p, it.stack = leafEntry p :: stack ∧ OnPath t stack slot ∧
    t.graph.read slot = some p ∧ t.deref p = some (.leaf k v)
  buffered : prefixBytes it.stack ≤ it.keybuf.length

theorem On.binds {t : Tree} {it : Iterator} {k v : List UInt8} (h : it.On t k v) :
    t.graph.Binds k v := by
  obtain ⟨stack, slot, p, -, -, -, hp⟩ := h.at_leaf
  exact ⟨p, Tree.graph_node_leaf_iff.mpr hp⟩

/-- An iterator is at one leaf only. -/
theorem On.unique {t : Tree} {it : Iterator} {k v k' v' : List UInt8} (h : it.On t k v)
    (h' : it.On t k' v') : k = k' ∧ v = v' := by
  obtain ⟨stack, slot, p, hstack, -, -, hp⟩ := h.at_leaf
  obtain ⟨stack', slot', p', hstack', -, -, hp'⟩ := h'.at_leaf
  rw [hstack] at hstack'
  have hpp : p = p' := congrArg StackEntry.node (List.cons.inj hstack').1
  subst hpp
  rw [hp] at hp'
  exact Body.leaf.inj (Option.some_inj.mp hp')

theorem On.ne_nil {t : Tree} {it : Iterator} {k v : List UInt8} (h : it.On t k v) :
    it.stack ≠ [] := by
  obtain ⟨stack, slot, p, hstack, -⟩ := h.at_leaf
  rw [hstack]
  exact List.cons_ne_nil _ _

theorem prefixBytes_cons (e : StackEntry) (stack : List StackEntry) :
    prefixBytes (e :: stack) = e.keyPrefix.length + prefixBytes stack := by
  rw [prefixBytes, List.map_cons, List.sum_cons, prefixBytes]

theorem leafEntry_length (p : NodePtr) : (leafEntry p).keyPrefix.length = 0 := by
  show KeyPrefix.length ⟨0, _⟩ = 0
  decide

theorem popKeybuf_ok {keybuf : List UInt8} {e : StackEntry}
    (h : e.keyPrefix.length ≤ keybuf.length) :
    popKeybuf keybuf e = .ok (keybuf.take (keybuf.length - e.keyPrefix.length)) := by
  rw [popKeybuf, assertThat_pos h]
  rfl

/-- After a pop there is enough left in the buffer for the entries below. -/
theorem popKeybuf_buffered {keybuf : List UInt8} {e : StackEntry} {stack : List StackEntry}
    (h : prefixBytes (e :: stack) ≤ keybuf.length) :
    ∃ keybuf', popKeybuf keybuf e = .ok keybuf' ∧ prefixBytes stack ≤ keybuf'.length := by
  rw [prefixBytes_cons] at h
  refine ⟨_, popKeybuf_ok (by omega), ?_⟩
  rw [List.length_take]
  omega

theorem push_ok {it : Iterator} {p : NodePtr} (e : IterResult) (hp : p.type ≠ .leaf) :
    it.push p e = .ok ⟨⟨p, e.keyByte, e.childIndex, e.keyPrefix⟩ :: it.stack,
      it.keybuf ++ e.keyPrefix.bytes ++ [e.keyByte]⟩ := by
  rw [push, assertThat_pos hp]
  rfl

theorem push_buffered {stack : List StackEntry} {keybuf : List UInt8} (p : NodePtr)
    (e : IterResult) (h : prefixBytes stack ≤ keybuf.length) :
    prefixBytes (⟨p, e.keyByte, e.childIndex, e.keyPrefix⟩ :: stack) ≤
      (keybuf ++ e.keyPrefix.bytes ++ [e.keyByte]).length := by
  rw [prefixBytes_cons, List.length_append, List.length_append, KeyPrefix.bytes_length]
  dsimp only
  omega

/-! ## 3. Moves -/

section Moves

variable {K : Set (List UInt8)} {path : NodePtr → List UInt8} {s : Db sizes} (h : s.tree.Inv K path)
  (fwd : Bool) {stack : List StackEntry} {slot : Radix.Slot NodePtr UInt8} {p : NodePtr}
  {keybuf : List UInt8} {it : Iterator} {k v : List UInt8}
include h

/-- A traversal ends at the first leaf below the slot it starts from. -/
theorem traversal_spec {fuel : Nat} (hheight : Radix.HeightLE s.tree.graph fuel p)
    (hpath : OnPath s.tree stack slot) (hread : s.tree.graph.read slot = some p)
    (hbuf : prefixBytes stack ≤ keybuf.length) :
    ∃ it' k v, traversal s.tree fwd fuel p ⟨stack, keybuf⟩ = .ok it' ∧ it'.On s.tree k v ∧
      Radix.FirstBelow (Toward fwd) s.tree.graph (slot.start path) k := by
  induction fuel generalizing p stack slot keybuf with
  | zero => exact absurd hheight id
  | succ fuel ih =>
    rw [traversal]
    by_cases htype : p.type = .leaf
    · obtain ⟨k, v, hp, -, -⟩ := h.leaf_of_tag hread htype
      rw [if_pos htype]
      refine ⟨_, k, v, rfl, ⟨⟨stack, slot, p, rfl, hpath, hread, hp⟩, ?_⟩, ?_⟩
      · show prefixBytes (leafEntry p :: stack) ≤ keybuf.length
        rw [prefixBytes_cons, leafEntry_length, Nat.zero_add]
        exact hbuf
      · exact h.graph.firstBelow_leaf hread (Tree.graph_node_leaf_iff.mpr hp)
    · obtain ⟨n, hp, hwf, -⟩ := h.inode_of_tag hread htype
      obtain ⟨e, hok, hres, hfirst⟩ := hwf.outermost fwd
      obtain ⟨c, hc, hget⟩ := hwf.getChild_of_isResult hres
      have hread' : s.tree.graph.read (.child p e.keyByte) = some c := by
        rw [Tree.graph_read_child hp, hc]
      obtain ⟨it', k, v, hrun, hon, hbelow⟩ := ih (hheight (Tree.graph_node_inode hp) hc)
        (hpath.child hread hp hres) hread' (push_buffered p e hbuf)
      refine ⟨it', k, v, ?_, hon, ?_⟩
      · rw [if_neg htype, Tree.readInode_ok hp]
        show (n.outermost fwd >>= _) = _
        rw [hok]
        show (push ⟨stack, keybuf⟩ p e >>= _) = _
        rw [push_ok e htype]
        simp only [bind, Except.bind, hget]
        exact hrun
      · refine h.graph.firstBelow_child hread (Tree.graph_node_inode hp) ?_ hbelow
        simpa [INode.boundIn] using hfirst

variable (hheight : ∀ {p body}, s.tree.deref p = some body →
  Radix.HeightLE s.tree.graph s.next p)
include hheight

/-- The end of the iteration, or the leaf of the first key beyond a string. -/
def Reaches (t : Tree) (fwd : Bool) (s : List UInt8) (it : Iterator) : Prop :=
  (it.stack = [] ∧ Radix.NoneAfter (Toward fwd) t.graph s) ∨
    ∃ k v, it.On t k v ∧ Radix.NextAfter (Toward fwd) t.graph s k

/-- The loop of `next` and of `prior`, from a stack of inner nodes. -/
theorem advance_spec (hpath : OnPath s.tree stack slot)
    (hbuf : prefixBytes stack ≤ keybuf.length) :
    ∃ it', advance s fwd stack keybuf = .ok it' ∧ Reaches s.tree fwd (slot.start path) it' := by
  induction hpath generalizing keybuf with
  | root =>
    refine ⟨⟨[], keybuf⟩, rfl, .inl ⟨rfl, fun _ hafter => ?_⟩⟩
    exact hafter.not_isPrefix Toward.irrefl List.nil_prefix
  | @child stack slot p n e hpath hread hp hres ih =>
    have htag := (Tree.deref_eq_some_iff.mp hp).2
    have htype : p.type ≠ .leaf := htag ▸ n.type_ne_leaf
    have hwf : n.WF := h.wf (Tree.deref_eq_some_iff.mp hp).1
    have hnode := Tree.graph_node_inode hp
    obtain ⟨i, hfind⟩ := hres.find
    obtain ⟨r, hsib, hr⟩ := hwf.sibling fwd hfind
    obtain ⟨keybuf', hpop, hbuf'⟩ := popKeybuf_buffered hbuf
    rw [advance, if_neg htype, Tree.readInode_ok hp]
    show ∃ it', (n.sibling fwd e.childIndex >>= _) = _ ∧ _
    rw [hsib]
    cases r with
    | none =>
      -- Nothing more in this node: the search goes on from its slot.
      obtain ⟨it', hrun, hreach⟩ := ih hbuf'
      refine ⟨it', ?_, ?_⟩
      · show (popKeybuf keybuf _ >>= _) = _
        rw [hpop]
        exact hrun
      · have hlast : ∀ b', (n.child b').isSome → ¬ Toward fwd e.keyByte b' := by
          intro b' hb' hlt
          have hmem : b' ∈ n.boundIn {a | Toward fwd e.keyByte a} := ⟨hlt, hb'⟩
          rw [show n.boundIn {a | Toward fwd e.keyByte a} = ∅ from hr] at hmem
          exact hmem
        have hiff : ∀ {k v}, s.tree.graph.Binds k v →
            (Precedes (Toward fwd) (path p ++ [e.keyByte]) k ↔
              Precedes (Toward fwd) (slot.start path) k) :=
          fun hk => h.graph.after_last_child Toward.irrefl hread hnode hlast hk
        rcases hreach with ⟨hend, hnone⟩ | ⟨k, v, hon, hnext⟩
        · exact .inl ⟨hend, hnone.congr hiff⟩
        · exact .inr ⟨k, v, hon, hnext.congr hon.binds hiff⟩
    | some e2 =>
      obtain ⟨hres2, hfirst⟩ := hr
      obtain ⟨c, hc, hget⟩ := hwf.getChild_of_isResult hres2
      have hread' : s.tree.graph.read (.child p e2.keyByte) = some c := by
        rw [Tree.graph_read_child hp, hc]
      obtain ⟨m, hm, -⟩ := h.graph.live hread'
      obtain ⟨body, hbody, -⟩ := Option.map_eq_some_iff.mp hm
      obtain ⟨it', k, v, hrun, hon, hbelow⟩ := traversal_spec h fwd (hheight hbody)
        (hpath.child hread hp hres2) hread' (push_buffered p e2 hbuf')
      refine ⟨it', ?_, .inr ⟨k, v, hon, ?_⟩⟩
      · show (popKeybuf keybuf _ >>= _) = _
        rw [hpop]
        show (push ⟨stack, keybuf'⟩ p e2 >>= _) = _
        rw [push_ok e2 htype]
        simp only [bind, Except.bind, hget]
        exact hrun
      · refine h.graph.nextAfter_sibling Toward.irrefl hread hnode ?_ hbelow
        refine ⟨⟨hfirst.1.2, hfirst.1.1⟩, fun b' hb' => hfirst.2 b' ⟨hb'.2, hb'.1⟩⟩

/-- `next` and `prior` from a leaf. -/
theorem On.advance_spec (hon : it.On s.tree k v) :
    ∃ it', advance s fwd it.stack it.keybuf = .ok it' ∧ Reaches s.tree fwd k it' := by
  obtain ⟨⟨stack, slot, p, hstack, hpath, hread, hp⟩, hbuf⟩ := hon
  rw [hstack] at hbuf ⊢
  obtain ⟨keybuf', hpop, hbuf'⟩ := popKeybuf_buffered hbuf
  have htype : (leafEntry p).node.type = .leaf := (Tree.deref_eq_some_iff.mp hp).2.symm
  have hiff : ∀ {k' v'}, s.tree.graph.Binds k' v' →
      (Precedes (Toward fwd) k k' ↔ Precedes (Toward fwd) (slot.start path) k') :=
    fun hk => h.graph.after_leaf Toward.irrefl hread (Tree.graph_node_leaf_iff.mpr hp) hk
  obtain ⟨it', hrun, hreach⟩ := Iterator.advance_spec h fwd hheight hpath hbuf'
  refine ⟨it', ?_, ?_⟩
  · rw [advance, if_pos htype, hpop]
    exact hrun
  · rcases hreach with ⟨hend, hnone⟩ | ⟨k', v', hon', hnext⟩
    · exact .inl ⟨hend, hnone.congr hiff⟩
    · exact .inr ⟨k', v', hon', hnext.congr hon'.binds hiff⟩

/-- `first` and `last`. -/
theorem outermost_spec (root : NodePtr) (hroot : s.tree.root = some root) :
    ∃ it' k v, traversal s.tree fwd s.next root .invalid = .ok it' ∧ it'.On s.tree k v ∧
      Radix.FirstBelow (Toward fwd) s.tree.graph [] k := by
  have hread : s.tree.graph.read .root = some root := hroot
  obtain ⟨m, hm, -⟩ := h.graph.live hread
  obtain ⟨body, hbody, -⟩ := Option.map_eq_some_iff.mp hm
  exact traversal_spec h fwd (hheight hbody) .root hread (Nat.zero_le _)

end Moves

end Iterator

end Unodb
