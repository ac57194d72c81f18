import Unodb.Node.Rep
import Unodb.Util.RadixOps

/-!
# The tree of nodes

What `db` and `olc_db` have in common: tagged node pointers, nodes in memory, and the places that
hold a pointer.  A tree is read as a radix tree graph, and its invariant adds to that of the graph
that inner nodes are well-formed and that pointer tags tell the type of the node.
-/

open Arrays

namespace Unodb

/-- `basic_node_ptr`: a node address and the type in the tag bits. -/
structure NodePtr where
  addr : Nat
  type : NodeType
deriving DecidableEq, Repr

/-- A node in memory: a leaf with its key and value bytes or an inner node. -/
inductive Body where
  | leaf (key value : List UInt8)
  | inode (n : INode NodePtr)

def Body.type : Body → NodeType
  | .leaf .. => .leaf
  | .inode n => n.type

/-- A place that holds a node pointer: the root pointer or an entry of a pointer array. -/
inductive Slot where
  | root
  | child (addr : Nat) (i : Nat)
deriving DecidableEq, Repr

/-- A root pointer and the nodes in memory. -/
structure Tree where
  root : Option NodePtr
  heap : Nat → Option Body

/-- A node as a node of the graph. -/
def Body.view : Body → Radix.Node NodePtr UInt8 (List UInt8)
  | .leaf key value => .leaf key value
  | .inode n => .inner n.keyPrefix.bytes n.child

namespace Tree

/-- What a pointer leads to: the node at its address, if its tag tells the type of that node. -/
def deref (t : Tree) (p : NodePtr) : Option Body :=
  (t.heap p.addr).filter fun body => body.type = p.type

/-- The graph of a tree.  Its addresses are tagged pointers, so an edge of the graph has the tag
    that tells the type of the node below it. -/
def graph (t : Tree) : Radix.Graph NodePtr UInt8 (List UInt8) where
  root := t.root
  node p := (t.deref p).map Body.view

/-- The pointer at a place in memory. -/
def load (t : Tree) : Slot → Option NodePtr
  | .root => t.root
  | .child a i =>
    match t.heap a with
    | some (.inode n) => n.slot i
    | _ => none

/-- A store of a pointer. -/
def store (t : Tree) : Slot → NodePtr → Tree
  | .root, p => { t with root := some p }
  | .child a i, p =>
    match t.heap a with
    | some (.inode n) => { t with heap := Function.update t.heap a (some (.inode (n.setSlot i p))) }
    | _ => t

/-- Put a node at an address, or take the one there away. -/
def set (t : Tree) (a : Nat) (body : Option Body) : Tree :=
  { t with heap := Function.update t.heap a body }

/-- A place in memory is the one of a slot of the graph. -/
inductive SlotAt (t : Tree) : Slot → Radix.Slot NodePtr UInt8 → Prop where
  | root : SlotAt t .root .root
  | child {p n b ci i} : t.deref p = some (.inode n) → n.findChild b = some (ci, i) →
      SlotAt t (.child p.addr i) (.child p b)

/-- The invariant of a tree whose keys come from `K`. -/
structure Inv (K : Set (List UInt8)) (t : Tree) (path : NodePtr → List UInt8) : Prop where
  graph : Radix.Inv K t.graph path
  wf : ∀ {a n}, t.heap a = some (.inode n) → n.WF

/-- The map a tree stores. -/
def Binds (t : Tree) (k v : List UInt8) : Prop := ∃ a, t.heap a = some (.leaf k v)

/-! ## 1. Reading -/

theorem deref_eq_some_iff {t : Tree} {p : NodePtr} {body : Body} :
    t.deref p = some body ↔ t.heap p.addr = some body ∧ body.type = p.type := by
  simp only [deref, Option.filter_eq_some_iff, decide_eq_true_eq]

/-- Two pointers to the node at one address are the same. -/
theorem deref_addr_inj {t : Tree} {p q : NodePtr} {body body' : Body} (hp : t.deref p = some body)
    (hq : t.deref q = some body') (haddr : p.addr = q.addr) : p = q := by
  obtain ⟨hp, hptype⟩ := deref_eq_some_iff.mp hp
  obtain ⟨hq, hqtype⟩ := deref_eq_some_iff.mp hq
  rw [haddr, hq, Option.some_inj] at hp
  have htype : p.type = q.type := by rw [← hptype, ← hqtype, hp]
  cases p
  cases q
  rw [NodePtr.mk.injEq]
  exact ⟨haddr, htype⟩

theorem graph_node_leaf_iff {t : Tree} {p : NodePtr} {k v : List UInt8} :
    t.graph.node p = some (.leaf k v) ↔ t.deref p = some (.leaf k v) := by
  simp only [graph, Option.map_eq_some_iff]
  constructor
  · rintro ⟨body, hbody, hview⟩
    cases body with
    | leaf key value =>
      cases hview
      exact hbody
    | inode n => cases hview
  · intro h
    exact ⟨_, h, rfl⟩

theorem graph_node_inode {t : Tree} {p : NodePtr} {n : INode NodePtr}
    (h : t.deref p = some (.inode n)) :
    t.graph.node p = some (.inner n.keyPrefix.bytes n.child) := by
  simp only [graph, h, Option.map_some, Body.view]

theorem graph_node_of_heap_none {t : Tree} {p : NodePtr} (h : t.heap p.addr = none) :
    t.graph.node p = none := by
  simp only [graph, deref, h, Option.filter_none, Option.map_none]

theorem binds_iff {t : Tree} {k v : List UInt8} : t.graph.Binds k v ↔ t.Binds k v := by
  constructor
  · rintro ⟨p, hp⟩
    exact ⟨p.addr, (deref_eq_some_iff.mp (graph_node_leaf_iff.mp hp)).1⟩
  · rintro ⟨a, ha⟩
    exact ⟨⟨a, .leaf⟩, graph_node_leaf_iff.mpr (deref_eq_some_iff.mpr ⟨ha, rfl⟩)⟩

theorem graph_read_child {t : Tree} {p : NodePtr} {n : INode NodePtr}
    (h : t.deref p = some (.inode n)) (b : UInt8) : t.graph.read (.child p b) = n.child b := by
  rw [Radix.Graph.read, graph_node_inode h]
  rfl

section Read

variable {K : Set (List UInt8)} {t : Tree} {path : NodePtr → List UInt8}
  {slot : Radix.Slot NodePtr UInt8} {p : NodePtr}

/-- A graph slot's place in memory holds its pointer. -/
theorem Inv.load_eq (h : t.Inv K path) {sl : Slot} (hsl : t.SlotAt sl slot) :
    t.load sl = t.graph.read slot := by
  cases hsl with
  | root => rfl
  | child hderef hfind =>
    have hheap := (deref_eq_some_iff.mp hderef).1
    obtain ⟨p, hp, hs, -⟩ := (h.wf hheap).findChild_eq_some hfind
    simp only [load, hheap]
    rw [graph_read_child hderef, hp, hs]

/-- A pointer in the tree leads to a node. -/
theorem Inv.body_of_read (h : t.Inv K path) (hread : t.graph.read slot = some p) :
    ∃ body, t.deref p = some body := by
  obtain ⟨m, hm, -⟩ := h.graph.live hread
  obtain ⟨body, hbody, -⟩ := Option.map_eq_some_iff.mp hm
  exact ⟨body, hbody⟩

/-- A pointer tagged as one to a leaf leads to a leaf that the slot's string starts. -/
theorem Inv.leaf_of_tag (h : t.Inv K path) (hp : t.graph.read slot = some p)
    (htype : p.type = .leaf) :
    ∃ k v, t.deref p = some (.leaf k v) ∧ slot.start path <+: k ∧ k ∈ K := by
  obtain ⟨n, hn, hstart⟩ := h.graph.live hp
  obtain ⟨body, hbody, hview⟩ := Option.map_eq_some_iff.mp hn
  cases body with
  | leaf k v =>
    subst hview
    exact ⟨k, v, hbody, hstart.2, h.graph.key_mem hn⟩
  | inode n =>
    have htag := (deref_eq_some_iff.mp hbody).2
    rw [htype] at htag
    exact absurd htag n.type_ne_leaf

/-- A pointer tagged as one to an inner node leads to a well-formed node of that type. -/
theorem Inv.inode_of_tag (h : t.Inv K path) (hp : t.graph.read slot = some p)
    (htype : p.type ≠ .leaf) :
    ∃ n, t.deref p = some (.inode n) ∧ n.WF ∧ path p = slot.start path ++ n.keyPrefix.bytes := by
  obtain ⟨m, hm, hstart⟩ := h.graph.live hp
  obtain ⟨body, hbody, hview⟩ := Option.map_eq_some_iff.mp hm
  cases body with
  | leaf k v => exact absurd (deref_eq_some_iff.mp hbody).2.symm htype
  | inode n =>
    subst hview
    exact ⟨n, hbody, h.wf (deref_eq_some_iff.mp hbody).1, hstart⟩

/-- Two leaves do not hold the same key. -/
theorem Inv.binds_unique (h : t.Inv K path) {k v v' : List UInt8} (hb : t.Binds k v)
    (hb' : t.Binds k v') : v = v' :=
  h.graph.binds_unique (binds_iff.mpr hb) (binds_iff.mpr hb')

end Read

/-! ## 2. Storing -/

theorem set_heap (t : Tree) (a : Nat) (body : Option Body) (x : Nat) :
    (t.set a body).heap x = if x = a then body else t.heap x := by
  simp only [set, Function.update_apply]

@[simp] theorem set_root (t : Tree) (a : Nat) (body : Option Body) : (t.set a body).root = t.root :=
  rfl

/-- Putting a node at an address, as the graph sees it: the node there before, if any, and the new
    one have the same type. -/
theorem graph_set {t : Tree} {a : Nat} {body : Option Body} (type : NodeType)
    (hold : ∀ body0, t.heap a = some body0 → body0.type = type)
    (hnew : ∀ body1, body = some body1 → body1.type = type) :
    (t.set a body).graph = t.graph.set ⟨a, type⟩ (body.map Body.view) := by
  simp only [graph, set, Radix.Graph.set, Radix.Graph.mk.injEq, true_and]
  funext x
  by_cases hx : x = ⟨a, type⟩
  · subst hx
    rw [Function.update_self]
    simp only [deref, Function.update_self]
    cases body with
    | none => rfl
    | some body1 =>
      rw [Option.filter_some, if_pos (by rw [decide_eq_true_eq]; exact hnew body1 rfl)]
  · rw [Function.update_of_ne hx]
    simp only [deref]
    by_cases hxa : x.addr = a
    · -- The address is right but the tag is not: nothing is there before or after.
      have hxt : type ≠ x.type := by
        rintro rfl
        subst hxa
        exact hx rfl
      have hdead : ∀ o : Option Body, (∀ body0, o = some body0 → body0.type = type) →
          o.filter (fun body => decide (body.type = x.type)) = none := by
        intro o ho
        cases o with
        | none => rfl
        | some body0 =>
          rw [Option.filter_some, if_neg]
          rw [decide_eq_true_eq, ho body0 rfl]
          exact hxt
      rw [hxa, Function.update_self, hdead _ hnew, hdead _ hold]
    · rw [Function.update_of_ne hxa]

theorem Inv.graph_store {K : Set (List UInt8)} {t : Tree} {path : NodePtr → List UInt8}
    (h : t.Inv K path) {sl : Slot} {slot : Radix.Slot NodePtr UInt8} (hsl : t.SlotAt sl slot)
    (p : NodePtr) : (t.store sl p).graph = t.graph.write slot p := by
  cases hsl with
  | root => rfl
  | @child q n b ci i hderef hfind =>
    obtain ⟨hheap, htype⟩ := deref_eq_some_iff.mp hderef
    have hrep := (h.wf hheap).setSlot hfind p
    simp only [store, hheap, Radix.Graph.write, graph_node_inode hderef]
    change (t.set q.addr _).graph = _
    rw [graph_set q.type]
    · simp only [Option.map_some, Body.view, INode.setSlot_keyPrefix, hrep.child_eq]
    · intro body0 hbody0
      rw [hheap, Option.some_inj] at hbody0
      subst hbody0
      exact htype
    · intro body1 hbody1
      rw [Option.some_inj] at hbody1
      subst hbody1
      simp only [Body.type, INode.setSlot_type]
      exact htype

/-- A store keeps inner nodes well-formed. -/
theorem Inv.store_wf {K : Set (List UInt8)} {t : Tree} {path : NodePtr → List UInt8}
    (h : t.Inv K path) {sl : Slot} {slot : Radix.Slot NodePtr UInt8} (hsl : t.SlotAt sl slot)
    (p : NodePtr) {a : Nat} {n : INode NodePtr}
    (hn : (t.store sl p).heap a = some (.inode n)) : n.WF := by
  cases hsl with
  | root => exact h.wf hn
  | @child q m b ci i hderef hfind =>
    have hheap := (deref_eq_some_iff.mp hderef).1
    simp only [store, hheap, Function.update_apply] at hn
    split at hn
    · cases hn
      exact ((h.wf hheap).setSlot hfind p).wf
    · exact h.wf hn

theorem store_heap_leaf_iff (t : Tree) (sl : Slot) (p : NodePtr) (a : Nat) (k v : List UInt8) :
    (t.store sl p).heap a = some (.leaf k v) ↔ t.heap a = some (.leaf k v) := by
  cases sl with
  | root => rfl
  | child q i =>
    simp only [store]
    split
    · rename_i n hheap
      simp only [Function.update_apply]
      split
      · rename_i heq
        rw [heq, hheap]
        simp
      · rfl
    · rfl

theorem store_heap_eq_none_iff (t : Tree) (sl : Slot) (p : NodePtr) (a : Nat) :
    (t.store sl p).heap a = none ↔ t.heap a = none := by
  cases sl with
  | root => rfl
  | child q i =>
    simp only [store]
    split
    · rename_i n hheap
      simp only [Function.update_apply]
      split
      · rename_i heq
        rw [heq, hheap]
        simp
      · rfl
    · rfl

/-- A store changes the node that holds the place only. -/
theorem store_heap_of_ne (t : Tree) {sl : Slot} {a : Nat} (h : ∀ i, sl ≠ .child a i) (p : NodePtr) :
    (t.store sl p).heap a = t.heap a := by
  cases sl with
  | root => rfl
  | child q i =>
    have haq : a ≠ q := fun heq => h i (by rw [heq])
    simp only [store]
    split
    · exact Function.update_of_ne haq _ _
    · rfl

/-! ## 3. Changes at different places -/

theorem set_set_comm (t : Tree) {a b : Nat} (hab : a ≠ b) (u v : Option Body) :
    (t.set a u).set b v = (t.set b v).set a u := by
  simp only [set, Function.update_comm hab]

theorem set_set (t : Tree) (a : Nat) (u v : Option Body) : (t.set a u).set a v = t.set a v := by
  simp only [set, Function.update_idem]

/-- A node that is put into free memory and taken away again. -/
theorem set_none_set (t : Tree) {a : Nat} (body : Body) (hnone : t.heap a = none) :
    (t.set a (some body)).set a none = t := by
  rw [set_set, set, Function.update_eq_self_iff.mpr hnone.symm]

theorem store_set_comm (t : Tree) {sl : Slot} {a : Nat} (h : ∀ i, sl ≠ .child a i)
    (body : Option Body) (p : NodePtr) :
    (t.set a body).store sl p = (t.store sl p).set a body := by
  cases sl with
  | root => rfl
  | child q i =>
    have hqa : q ≠ a := fun heq => h i (by rw [heq])
    simp only [store, set_heap, if_neg hqa]
    split
    · exact set_set_comm t hqa.symm _ _
    · rfl

theorem load_set_ne (t : Tree) {sl : Slot} {a : Nat} (h : ∀ i, sl ≠ .child a i)
    (body : Option Body) : (t.set a body).load sl = t.load sl := by
  cases sl with
  | root => rfl
  | child q i =>
    have hqa : q ≠ a := fun heq => h i (by rw [heq])
    simp only [load, set_heap, if_neg hqa]

theorem deref_set_ne (t : Tree) {p : NodePtr} {a : Nat} (h : p.addr ≠ a) (body : Option Body) :
    (t.set a body).deref p = t.deref p := by
  simp only [deref, set_heap, if_neg h]

theorem deref_set_self (t : Tree) (a : Nat) (body : Body) :
    (t.set a (some body)).deref ⟨a, body.type⟩ = some body := by
  rw [deref_eq_some_iff, set_heap, if_pos rfl]
  exact ⟨rfl, rfl⟩

/-- A place in memory is in a node that is there. -/
theorem SlotAt.ne_of_heap_none {t : Tree} {sl : Slot} {slot : Radix.Slot NodePtr UInt8} {x : Nat}
    (hsl : t.SlotAt sl slot) (hx : t.heap x = none) (i : Nat) : sl ≠ .child x i := by
  cases hsl with
  | root => simp
  | child hderef hfind =>
    rintro heq
    rw [Slot.child.injEq] at heq
    rw [← heq.1, (deref_eq_some_iff.mp hderef).1] at hx
    cases hx

/-- A node does not hold the pointer to itself. -/
theorem Inv.ne_slot {K : Set (List UInt8)} {t : Tree} {path : NodePtr → List UInt8}
    (h : t.Inv K path) {sl : Slot} {slot : Radix.Slot NodePtr UInt8} {p : NodePtr} {body : Body}
    (hsl : t.SlotAt sl slot) (hread : t.graph.read slot = some p) (hp : t.deref p = some body)
    (i : Nat) : sl ≠ .child p.addr i := by
  cases hsl with
  | root => simp
  | @child q n b ci j hderef hfind =>
    rintro heq
    rw [Slot.child.injEq] at heq
    have hlt := h.graph.path_lt_of_child hread
    rw [deref_addr_inj hderef hp heq.1] at hlt
    omega

section Child

variable {K : Set (List UInt8)} {t : Tree} {path : NodePtr → List UInt8} {p q : NodePtr}
  {b : UInt8} {body body' : Body}

/-- A node is not its own child. -/
theorem Inv.addr_ne_child (h : t.Inv K path) (hp : t.deref p = some body)
    (hread : t.graph.read (.child p b) = some q) (hq : t.deref q = some body') :
    q.addr ≠ p.addr := by
  intro heq
  have hlt := h.graph.path_lt_of_child hread
  rw [deref_addr_inj hq hp heq] at hlt
  omega

/-- The pointer to a node is not in one of its children. -/
theorem Inv.ne_slot_child (h : t.Inv K path) {sl : Slot} {slot : Radix.Slot NodePtr UInt8}
    (hsl : t.SlotAt sl slot) (hread : t.graph.read slot = some p)
    (hreadq : t.graph.read (.child p b) = some q) (hq : t.deref q = some body) (j : Nat) :
    sl ≠ .child q.addr j := by
  cases hsl with
  | root => simp
  | child hderef hfind =>
    rintro heq
    rw [Slot.child.injEq] at heq
    have h1 := h.graph.path_lt_of_child hreadq
    have h2 := h.graph.path_lt_of_child hread
    rw [deref_addr_inj hderef hq heq.1] at h2
    omega

end Child

end Tree

end Unodb
