import Unodb.Tree.Basic

/-!
# Structural changes of the tree

The memory changes that the insert and remove code of both databases makes, each with the proof
that it keeps the invariant of the tree and changes the stored map by exactly one binding.
-/

open Arrays

namespace Unodb

namespace Tree

variable {K : Set (List UInt8)} {t : Tree} {path : NodePtr → List UInt8}
  {sl : Slot} {slot : Radix.Slot NodePtr UInt8} {p q : NodePtr} {n n' m m' : INode NodePtr}
  {b b' : UInt8} {x z l : Nat} {k v k' v' : List UInt8}

/-- The new map binds `k` to `v` and is otherwise the old one. -/
def Adds (t t' : Tree) (k v : List UInt8) : Prop :=
  ∀ k' v', t'.Binds k' v' ↔ (k' = k ∧ v' = v) ∨ t.Binds k' v'

/-- The new map is the old one without the binding of `k`. -/
def Drops (t t' : Tree) (k : List UInt8) : Prop :=
  ∀ k' v', t'.Binds k' v' ↔ k' ≠ k ∧ t.Binds k' v'

/-- A tree whose leaves are the old ones and one at a free address. -/
theorem adds_of_heap {t' : Tree} (x : Nat)
    (hleaf : ∀ a k' v', t'.heap a = some (.leaf k' v') ↔
      (a = x ∧ k' = k ∧ v' = v) ∨ t.heap a = some (.leaf k' v')) : t.Adds t' k v := by
  intro k' v'
  constructor
  · rintro ⟨a, ha⟩
    rcases (hleaf a k' v').mp ha with ⟨-, hk, hv⟩ | hold
    · exact .inl ⟨hk, hv⟩
    · exact .inr ⟨a, hold⟩
  · rintro (⟨hk, hv⟩ | ⟨a, hold⟩)
    · exact ⟨x, (hleaf x k' v').mpr (.inl ⟨rfl, hk, hv⟩)⟩
    · exact ⟨a, (hleaf a k' v').mpr (.inr hold)⟩

/-- A tree whose leaves are the old ones except the one of a key. -/
theorem Inv.drops_of_heap (h : t.Inv K path) {t' : Tree} (hl : t.heap l = some (.leaf k v))
    (hleaf : ∀ a k' v', t'.heap a = some (.leaf k' v') ↔
      a ≠ l ∧ t.heap a = some (.leaf k' v')) : t.Drops t' k := by
  have hlderef : t.deref ⟨l, .leaf⟩ = some (.leaf k v) := deref_eq_some_iff.mpr ⟨hl, rfl⟩
  intro k' v'
  constructor
  · rintro ⟨a, ha⟩
    obtain ⟨hal, hold⟩ := (hleaf a k' v').mp ha
    refine ⟨?_, a, hold⟩
    rintro rfl
    have haderef : t.deref ⟨a, .leaf⟩ = some (.leaf k' v') := deref_eq_some_iff.mpr ⟨hold, rfl⟩
    have heq := h.graph.leaf_unique (graph_node_leaf_iff.mpr haderef)
      (graph_node_leaf_iff.mpr hlderef)
    exact hal (congrArg NodePtr.addr heq)
  · rintro ⟨hne, a, hold⟩
    refine ⟨a, (hleaf a k' v').mpr ⟨?_, hold⟩⟩
    rintro rfl
    rw [hl] at hold
    cases hold
    exact hne rfl

theorem heap_ne_of_deref {body : Body} (hp : t.deref p = some body) (hx : t.heap x = none) :
    p.addr ≠ x := by
  rintro rfl
  rw [(deref_eq_some_iff.mp hp).1] at hx
  cases hx

/-! ## 1. Insertion -/

/-- The first leaf. -/
def insertRoot (t : Tree) (x : Nat) (k v : List UInt8) : Tree :=
  { root := some ⟨x, .leaf⟩, heap := Function.update t.heap x (some (.leaf k v)) }

theorem Inv.insertRoot (h : t.Inv K path) (hroot : t.root = none) (hk : k ∈ K)
    (hx : t.heap x = none) (v : List UInt8) :
    (t.insertRoot x k v).Inv K (Function.update path ⟨x, .leaf⟩ k) ∧
      t.Adds (t.insertRoot x k v) k v := by
  have hset : (t.set x (some (.leaf k v))).graph =
      t.graph.set ⟨x, .leaf⟩ (some (.leaf k v)) :=
    graph_set .leaf (fun _ h0 => by rw [hx] at h0; cases h0) (fun _ h1 => by cases h1; rfl)
  refine ⟨⟨?_, ?_⟩, ?_⟩
  · have hinv := h.graph.insertRoot hroot hk v ⟨x, .leaf⟩
    have hnode := congrArg Radix.Graph.node hset
    simp only [Radix.Graph.set] at hnode
    rw [← hnode] at hinv
    exact hinv
  · intro a n hn
    simp only [Tree.insertRoot, Function.update_apply] at hn
    split at hn
    · cases hn
    · exact h.wf hn
  · refine adds_of_heap x fun a k' v' => ?_
    simp only [Tree.insertRoot, Function.update_apply]
    by_cases hax : a = x
    · subst hax
      rw [if_pos rfl, hx]
      simp [eq_comm]
    · rw [if_neg hax]
      simp [hax]

/-- A leaf added to an inner node with room for it. -/
def addLeaf (t : Tree) (p : NodePtr) (n' : INode NodePtr) (x : Nat) (k v : List UInt8) : Tree :=
  (t.set x (some (.leaf k v))).set p.addr (some (.inode n'))

theorem Inv.addLeaf (h : t.Inv K path) (hp : t.deref p = some (.inode n)) (hb : n.child b = none)
    (hn' : n'.Rep (Function.update n.child b (some ⟨x, .leaf⟩)))
    (hpre : n'.keyPrefix = n.keyPrefix) (htype : n'.type = n.type) (hx : t.heap x = none)
    (hk : k ∈ K) (hpath : path p ++ [b] <+: k) (v : List UInt8) :
    (t.addLeaf p n' x k v).Inv K (Function.update path ⟨x, .leaf⟩ k) ∧
      t.Adds (t.addLeaf p n' x k v) k v := by
  obtain ⟨hheap, hptype⟩ := deref_eq_some_iff.mp hp
  have hpx := heap_ne_of_deref hp hx
  have hgraph : (t.addLeaf p n' x k v).graph = (t.graph.set ⟨x, .leaf⟩ (some (.leaf k v))).set p
      (some (.inner n.keyPrefix.bytes (Function.update n.child b (some ⟨x, .leaf⟩)))) := by
    rw [Tree.addLeaf, graph_set p.type, graph_set .leaf]
    · simp only [Option.map_some, Body.view, hn'.child_eq, hpre]
    · intro _ h0
      rw [hx] at h0
      cases h0
    · intro _ h1
      cases h1
      rfl
    · intro _ h0
      rw [set_heap, if_neg hpx, hheap] at h0
      cases h0
      exact hptype
    · intro _ h1
      cases h1
      exact htype.trans hptype
  refine ⟨⟨?_, ?_⟩, ?_⟩
  · rw [hgraph]
    exact h.graph.addLeaf (graph_node_inode hp) hb hk hpath
      (graph_node_of_heap_none (p := ⟨x, .leaf⟩) hx) v
  · intro a m hm
    rw [Tree.addLeaf, set_heap, set_heap] at hm
    split at hm
    · cases hm
      exact hn'.wf
    · split at hm
      · cases hm
      · exact h.wf hm
  · refine adds_of_heap x fun a k' v' => ?_
    rw [Tree.addLeaf, set_heap, set_heap]
    by_cases hap : a = p.addr
    · subst hap
      rw [if_pos rfl, hheap]
      simp [hpx]
    · rw [if_neg hap]
      by_cases hax : a = x
      · subst hax
        rw [if_pos rfl, hx]
        simp [eq_comm]
      · rw [if_neg hax]
        simp [hax]

/-- A full inner node replaced by a larger one with the new leaf. -/
def growNode (t : Tree) (sl : Slot) (p : NodePtr) (z : Nat) (n' : INode NodePtr) (x : Nat)
    (k v : List UInt8) : Tree :=
  (((t.store sl ⟨z, n'.type⟩).set p.addr none).set z (some (.inode n'))).set x (some (.leaf k v))

/-- What a store does to the node a pointer leads to: nothing but its children. -/
theorem store_deref_inode (t : Tree) (sl : Slot) (r : NodePtr) (hp : t.deref p = some (.inode n)) :
    ∃ m, (t.store sl r).heap p.addr = some (.inode m) ∧ m.type = p.type := by
  obtain ⟨hheap, htype⟩ := deref_eq_some_iff.mp hp
  cases sl with
  | root => exact ⟨n, hheap, htype⟩
  | child a i =>
    simp only [store]
    split
    · rename_i m hm
      simp only [Function.update_apply]
      split
      · rename_i heq
        rw [← heq, hheap] at hm
        cases hm
        exact ⟨_, rfl, by rw [INode.setSlot_type]; exact htype⟩
      · exact ⟨n, hheap, htype⟩
    · exact ⟨n, hheap, htype⟩

theorem Inv.growNode (h : t.Inv K path) (hsl : t.SlotAt sl slot)
    (hslot : t.graph.read slot = some p) (hp : t.deref p = some (.inode n))
    (hb : n.child b = none) (hn' : n'.Rep (Function.update n.child b (some ⟨x, .leaf⟩)))
    (hpre : n'.keyPrefix = n.keyPrefix) (hx : t.heap x = none) (hz : t.heap z = none)
    (hxz : x ≠ z) (hk : k ∈ K) (hpath : path p ++ [b] <+: k) (v : List UInt8) :
    (t.growNode sl p z n' x k v).Inv K
        (Function.update (Function.update path ⟨x, .leaf⟩ k) ⟨z, n'.type⟩ (path p)) ∧
      t.Adds (t.growNode sl p z n' x k v) k v := by
  obtain ⟨hheap, hptype⟩ := deref_eq_some_iff.mp hp
  have hpx := heap_ne_of_deref hp hx
  have hpz := heap_ne_of_deref hp hz
  have hxs : (t.store sl ⟨z, n'.type⟩).heap x = none := (store_heap_eq_none_iff ..).mpr hx
  have hzs : (t.store sl ⟨z, n'.type⟩).heap z = none := (store_heap_eq_none_iff ..).mpr hz
  -- The heap after the steps is the graph after a write of a slot and three of nodes.
  have hgraph : (t.growNode sl p z n' x k v).graph =
      (((t.graph.write slot ⟨z, n'.type⟩).set p none).set ⟨z, n'.type⟩
        (some (.inner n.keyPrefix.bytes (Function.update n.child b (some ⟨x, .leaf⟩))))).set
        ⟨x, .leaf⟩ (some (.leaf k v)) := by
    rw [Tree.growNode, graph_set .leaf, graph_set n'.type, graph_set p.type, h.graph_store hsl]
    · simp only [Option.map_some, Option.map_none, Body.view, hn'.child_eq, hpre]
    · intro _ h0
      obtain ⟨m, hm, hmt⟩ := store_deref_inode t sl ⟨z, n'.type⟩ hp
      rw [hm] at h0
      cases h0
      exact hmt
    · intro _ h1
      cases h1
    · intro _ h0
      rw [set_heap, if_neg hpz.symm, hzs] at h0
      cases h0
    · intro _ h1
      cases h1
      rfl
    · intro _ h0
      rw [set_heap, if_neg hxz, set_heap, if_neg hpx.symm, hxs] at h0
      cases h0
    · intro _ h1
      cases h1
      rfl
  refine ⟨⟨?_, ?_⟩, ?_⟩
  · rw [hgraph]
    refine h.graph.growLeaf hslot (graph_node_inode hp) hb hk hpath
      (graph_node_of_heap_none (p := ⟨x, .leaf⟩) hx)
      (graph_node_of_heap_none (p := ⟨z, n'.type⟩) hz) ?_ v
    rintro heq
    exact hxz (congrArg NodePtr.addr heq)
  · intro a m hm
    rw [Tree.growNode, set_heap, set_heap, set_heap] at hm
    split at hm
    · cases hm
    · split at hm
      · cases hm
        exact hn'.wf
      · split at hm
        · cases hm
        · exact h.store_wf hsl _ hm
  -- Of the leaves only the new one has come.
  · refine adds_of_heap x fun a k' v' => ?_
    rw [Tree.growNode, set_heap, set_heap, set_heap]
    by_cases hax : a = x
    · subst hax
      rw [if_pos rfl, hx]
      simp [eq_comm]
    · rw [if_neg hax]
      by_cases haz : a = z
      · subst haz
        rw [if_pos rfl, hz]
        simp [hax]
      · rw [if_neg haz]
        by_cases hap : a = p.addr
        · subst hap
          rw [if_pos rfl, hheap]
          simp [hpx]
        · rw [if_neg hap, store_heap_leaf_iff]
          simp [hax]

/-- A leaf's edge split by a new inner node that also holds the new leaf. -/
def splitLeaf (t : Tree) (sl : Slot) (z : Nat) (n' : INode NodePtr) (x : Nat) (k v : List UInt8) :
    Tree :=
  ((t.store sl ⟨z, n'.type⟩).set z (some (.inode n'))).set x (some (.leaf k v))

/-- An inner node's edge split by a new inner node that also holds the new leaf; the old node is
    left with the rest of its prefix. -/
def splitPrefix (t : Tree) (sl : Slot) (z : Nat) (n' : INode NodePtr) (x : Nat)
    (k v : List UInt8) (p : NodePtr) (m' : INode NodePtr) : Tree :=
  (t.splitLeaf sl z n' x k v).set p.addr (some (.inode m'))

theorem graph_splitLeaf (h : t.Inv K path) (hsl : t.SlotAt sl slot) (hx : t.heap x = none)
    (hz : t.heap z = none) (hxz : x ≠ z) {keyPrefix : List UInt8} {c : UInt8 → Option NodePtr}
    (hpre : n'.keyPrefix.bytes = keyPrefix) (hn' : n'.Rep c) (k v : List UInt8) :
    (t.splitLeaf sl z n' x k v).graph =
      ((t.graph.write slot ⟨z, n'.type⟩).set ⟨z, n'.type⟩ (some (.inner keyPrefix c))).set
        ⟨x, .leaf⟩ (some (.leaf k v)) := by
  have hxs : (t.store sl ⟨z, n'.type⟩).heap x = none := (store_heap_eq_none_iff ..).mpr hx
  have hzs : (t.store sl ⟨z, n'.type⟩).heap z = none := (store_heap_eq_none_iff ..).mpr hz
  rw [splitLeaf, graph_set .leaf, graph_set n'.type, h.graph_store hsl]
  · simp only [Option.map_some, Body.view, hn'.child_eq, hpre]
  · intro _ h0
    rw [hzs] at h0
    cases h0
  · intro _ h1
    cases h1
    rfl
  · intro _ h0
    rw [set_heap, if_neg hxz, hxs] at h0
    cases h0
  · intro _ h1
    cases h1
    rfl

theorem splitLeaf_wf (h : t.Inv K path) (hsl : t.SlotAt sl slot) (hn' : n'.WF) {a : Nat}
    (hm : (t.splitLeaf sl z n' x k v).heap a = some (.inode m)) : m.WF := by
  rw [splitLeaf, set_heap, set_heap] at hm
  split at hm
  · cases hm
  · split at hm
    · cases hm
      exact hn'
    · exact h.store_wf hsl _ hm

theorem splitLeaf_heap_leaf_iff (hx : t.heap x = none) (hz : t.heap z = none) (a : Nat)
    (k' v' : List UInt8) :
    (t.splitLeaf sl z n' x k v).heap a = some (.leaf k' v') ↔
      (a = x ∧ k' = k ∧ v' = v) ∨ t.heap a = some (.leaf k' v') := by
  rw [splitLeaf, set_heap, set_heap]
  by_cases hax : a = x
  · subst hax
    rw [if_pos rfl, hx]
    simp [eq_comm]
  · rw [if_neg hax]
    by_cases haz : a = z
    · subst haz
      rw [if_pos rfl, hz]
      simp [hax]
    · rw [if_neg haz, store_heap_leaf_iff]
      simp [hax]

/-- The map a new inner node has: the old node on one byte and the new leaf on another. -/
def twoChildren (bo : UInt8) (p : NodePtr) (bn : UInt8) (x : Nat) : UInt8 → Option NodePtr :=
  Function.update (Function.update (fun _ => none) bo (some p)) bn (some ⟨x, .leaf⟩)

theorem Inv.splitLeaf (h : t.Inv K path) (hsl : t.SlotAt sl slot)
    (hslot : t.graph.read slot = some p) (hp : t.deref p = some (.leaf k' v'))
    (hn' : n'.Rep (twoChildren b p b' x)) (hx : t.heap x = none) (hz : t.heap z = none)
    (hxz : x ≠ z) (hbb : b ≠ b') (hold : slot.start path ++ n'.keyPrefix.bytes ++ [b] <+: k')
    (hk : k ∈ K) (hnew : slot.start path ++ n'.keyPrefix.bytes ++ [b'] <+: k) (v : List UInt8) :
    (t.splitLeaf sl z n' x k v).Inv K
        (Function.update (Function.update path ⟨x, .leaf⟩ k) ⟨z, n'.type⟩
          (slot.start path ++ n'.keyPrefix.bytes)) ∧
      t.Adds (t.splitLeaf sl z n' x k v) k v := by
  refine ⟨⟨?_, fun hm => splitLeaf_wf h hsl hn'.wf hm⟩,
    adds_of_heap x fun a k' v' => splitLeaf_heap_leaf_iff hx hz a k' v'⟩
  have hpleaf := graph_node_leaf_iff.mpr hp
  have hpx := heap_ne_of_deref hp hx
  have hpz := heap_ne_of_deref hp hz
  have hzx : (⟨z, n'.type⟩ : NodePtr) ≠ ⟨x, .leaf⟩ := fun heq => hxz (congrArg NodePtr.addr heq).symm
  obtain ⟨_, hm, hstart⟩ := h.graph.live hslot
  rw [hpleaf, Option.some_inj] at hm
  subst hm
  have hinv := h.graph.split hslot hpleaf
    (graph_node_of_heap_none (p := ⟨z, n'.type⟩) hz) (graph_node_of_heap_none (p := ⟨x, .leaf⟩) hx)
    hzx (show Radix.SameKids _ (.leaf k' v') from ⟨rfl, rfl⟩) hbb
    (show path p = k' ∧ _ from ⟨hstart.1, hold⟩) hk hnew v
  rw [graph_splitLeaf h hsl hx hz hxz rfl hn']
  -- The last update of the graph split puts the old leaf where it already is.
  have hsame : ∀ g : Radix.Graph NodePtr UInt8 (List UInt8),
      g.node p = some (.leaf k' v') → g.set p (some (.leaf k' v')) = g := by
    intro g hg
    simp only [Radix.Graph.set, ← hg, Function.update_eq_self]
  rw [Radix.Graph.split, hsame] at hinv
  · exact hinv
  · rw [Radix.Graph.set_node, if_neg (fun heq => hpx (congrArg NodePtr.addr heq)),
      Radix.Graph.set_node, if_neg (fun heq => hpz (congrArg NodePtr.addr heq)),
      Radix.write_node_leaf_iff, hpleaf]

theorem Inv.splitPrefix (h : t.Inv K path) (hsl : t.SlotAt sl slot)
    (hslot : t.graph.read slot = some p) (hp : t.deref p = some (.inode m))
    (hn' : n'.Rep (twoChildren b p b' x)) (hm' : m'.Rep m.child) (hmtype : m'.type = m.type)
    (hx : t.heap x = none) (hz : t.heap z = none) (hxz : x ≠ z) (hbb : b ≠ b')
    (hold : m.keyPrefix.bytes = n'.keyPrefix.bytes ++ [b] ++ m'.keyPrefix.bytes) (hk : k ∈ K)
    (hnew : slot.start path ++ n'.keyPrefix.bytes ++ [b'] <+: k) (v : List UInt8) :
    (t.splitPrefix sl z n' x k v p m').Inv K
        (Function.update (Function.update path ⟨x, .leaf⟩ k) ⟨z, n'.type⟩
          (slot.start path ++ n'.keyPrefix.bytes)) ∧
      t.Adds (t.splitPrefix sl z n' x k v p m') k v := by
  obtain ⟨hheap, hptype⟩ := deref_eq_some_iff.mp hp
  have hpx := heap_ne_of_deref hp hx
  have hpz := heap_ne_of_deref hp hz
  have hzx : (⟨z, n'.type⟩ : NodePtr) ≠ ⟨x, .leaf⟩ := fun heq => hxz (congrArg NodePtr.addr heq).symm
  refine ⟨⟨?_, ?_⟩, ?_⟩
  · obtain ⟨_, hnode, hstart⟩ := h.graph.live hslot
    rw [graph_node_inode hp, Option.some_inj] at hnode
    subst hnode
    have hfit : path p = slot.start path ++ n'.keyPrefix.bytes ++ [b] ++ m'.keyPrefix.bytes := by
      have hs : path p = slot.start path ++ m.keyPrefix.bytes := hstart
      rw [hs, hold]
      simp only [List.append_assoc]
    have hinv := h.graph.split hslot (graph_node_inode hp)
      (graph_node_of_heap_none (p := ⟨z, n'.type⟩) hz)
      (graph_node_of_heap_none (p := ⟨x, .leaf⟩) hx) hzx
      (show Radix.SameKids _ (.inner m'.keyPrefix.bytes m'.child) from hm'.child_eq.symm) hbb hfit hk
      hnew v
    rw [Tree.splitPrefix, graph_set p.type, graph_splitLeaf h hsl hx hz hxz rfl hn']
    · exact hinv
    · intro _ h0
      obtain ⟨m0, hm0, hmt⟩ := store_deref_inode t sl ⟨z, n'.type⟩ hp
      rw [Tree.splitLeaf, set_heap, if_neg hpx, set_heap, if_neg hpz, hm0] at h0
      cases h0
      exact hmt
    · intro _ h1
      cases h1
      exact hmtype.trans hptype
  · intro a m0 hm0
    rw [Tree.splitPrefix, set_heap] at hm0
    split at hm0
    · cases hm0
      exact hm'.wf
    · exact splitLeaf_wf h hsl hn'.wf hm0
  · refine adds_of_heap x fun a k' v' => ?_
    rw [Tree.splitPrefix, set_heap]
    by_cases hap : a = p.addr
    · subst hap
      rw [if_pos rfl, hheap]
      simp [hpx]
    · rw [if_neg hap, splitLeaf_heap_leaf_iff hx hz]

/-! ## 2. Removal -/

/-- The last leaf taken away. -/
def removeRoot (t : Tree) (l : Nat) : Tree :=
  { root := none, heap := Function.update t.heap l none }

theorem Inv.removeRoot (h : t.Inv K path) (hroot : t.root = some p)
    (hp : t.deref p = some (.leaf k v)) :
    (t.removeRoot p.addr).Inv K path ∧ t.Drops (t.removeRoot p.addr) k := by
  obtain ⟨hheap, hptype⟩ := deref_eq_some_iff.mp hp
  obtain ⟨hinv, -⟩ := h.graph.removeRoot hroot (graph_node_leaf_iff.mpr hp)
  have hset : (t.set p.addr none).graph = t.graph.set p none := by
    rw [graph_set p.type]
    · rfl
    · intro _ h0
      rw [hheap] at h0
      cases h0
      exact hptype
    · intro _ h1
      cases h1
  refine ⟨⟨?_, ?_⟩, ?_⟩
  · have hnode := congrArg Radix.Graph.node hset
    simp only [Radix.Graph.set] at hnode
    rw [← hnode] at hinv
    exact hinv
  · intro a n hn
    simp only [Tree.removeRoot, Function.update_apply] at hn
    split at hn
    · cases hn
    · exact h.wf hn
  · refine h.drops_of_heap hheap fun a k' v' => ?_
    simp only [Tree.removeRoot, Function.update_apply]
    by_cases ha : a = p.addr
    · simp [ha]
    · simp [ha]

/-- A leaf taken from an inner node above its minimum size. -/
def removeLeaf (t : Tree) (p : NodePtr) (n' : INode NodePtr) (l : Nat) : Tree :=
  (t.set l none).set p.addr (some (.inode n'))

/-- A node with more than two children keeps two when one is taken away. -/
theorem exists_two_of_degree {f : UInt8 → Option NodePtr} (hdeg : 2 < degree f) (b : UInt8) :
    ∃ b1 b2, b1 ≠ b2 ∧ b1 ≠ b ∧ b2 ≠ b ∧ (f b1).isSome ∧ (f b2).isSome := by
  obtain ⟨b1, hb1, hs1⟩ := exists_ne_of_one_lt_degree (f := f) (by omega) b
  have hdeg1 : degree (Function.update f b1 none) + 1 = degree f := degree_update_none hs1
  obtain ⟨b2, hb2, hs2⟩ := exists_ne_of_one_lt_degree
    (f := Function.update f b1 none) (by omega) b
  have hb21 : b2 ≠ b1 := by
    rintro rfl
    rw [Function.update_self] at hs2
    cases hs2
  rw [Function.update_of_ne hb21] at hs2
  exact ⟨b1, b2, hb21.symm, hb1, hb2, hs1, hs2⟩

section RemoveChild

variable {c : NodePtr}

theorem addr_ne_of_leaf_inode (hp : t.deref p = some (.inode n))
    (hc : t.deref c = some (.leaf k v)) : p.addr ≠ c.addr := by
  intro heq
  have h1 := (deref_eq_some_iff.mp hp).1
  have h2 := (deref_eq_some_iff.mp hc).1
  rw [heq, h2] at h1
  cases h1

/-- A place in memory is not in a leaf. -/
theorem SlotAt.ne_leaf (hsl : t.SlotAt sl slot) (hc : t.deref c = some (.leaf k v)) (i : Nat) :
    sl ≠ .child c.addr i := by
  cases hsl with
  | root => simp
  | child hderef hfind =>
    rintro heq
    rw [Slot.child.injEq] at heq
    exact addr_ne_of_leaf_inode hderef hc heq.1

theorem Inv.removeLeaf (h : t.Inv K path) (hp : t.deref p = some (.inode n))
    (hb : n.child b = some c) (hc : t.deref c = some (.leaf k v))
    (hn' : n'.Rep (Function.update n.child b none)) (hpre : n'.keyPrefix = n.keyPrefix)
    (htype : n'.type = n.type) (hdeg : 2 < degree n.child) :
    (t.removeLeaf p n' c.addr).Inv K path ∧ t.Drops (t.removeLeaf p n' c.addr) k := by
  obtain ⟨hheap, hptype⟩ := deref_eq_some_iff.mp hp
  obtain ⟨hcheap, hctype⟩ := deref_eq_some_iff.mp hc
  have hpc := addr_ne_of_leaf_inode hp hc
  have hgraph : (t.removeLeaf p n' c.addr).graph = (t.graph.set c none).set p
      (some (.inner n.keyPrefix.bytes (Function.update n.child b none))) := by
    rw [Tree.removeLeaf, graph_set p.type, graph_set c.type]
    · simp only [Option.map_some, Option.map_none, Body.view, hn'.child_eq, hpre]
    · intro _ h0
      rw [hcheap] at h0
      cases h0
      exact hctype
    · intro _ h1
      cases h1
    · intro _ h0
      rw [set_heap, if_neg hpc, hheap] at h0
      cases h0
      exact hptype
    · intro _ h1
      cases h1
      exact htype.trans hptype
  refine ⟨⟨?_, ?_⟩, ?_⟩
  · rw [hgraph]
    exact h.graph.removeLeaf (graph_node_inode hp) hb (graph_node_leaf_iff.mpr hc)
      (exists_two_of_degree hdeg b)
  · intro a m hm
    rw [Tree.removeLeaf, set_heap, set_heap] at hm
    split at hm
    · cases hm
      exact hn'.wf
    · split at hm
      · cases hm
      · exact h.wf hm
  · refine h.drops_of_heap hcheap fun a k' v' => ?_
    rw [Tree.removeLeaf, set_heap, set_heap]
    by_cases hap : a = p.addr
    · subst hap
      rw [if_pos rfl, hheap]
      simp
    · rw [if_neg hap]
      by_cases hac : a = c.addr
      · simp [hac]
      · simp [hac]

/-- A minimum-size inner node replaced by a smaller one without the leaf. -/
def shrinkNode (t : Tree) (sl : Slot) (p : NodePtr) (z : Nat) (n' : INode NodePtr) (l : Nat) :
    Tree :=
  (((t.store sl ⟨z, n'.type⟩).set p.addr none).set l none).set z (some (.inode n'))

theorem store_deref_leaf (t : Tree) (sl : Slot) (r : NodePtr) (hc : t.deref c = some (.leaf k v)) :
    (t.store sl r).heap c.addr = some (.leaf k v) ∧ c.type = .leaf := by
  obtain ⟨hheap, htype⟩ := deref_eq_some_iff.mp hc
  exact ⟨(store_heap_leaf_iff ..).mpr hheap, htype.symm⟩

theorem Inv.shrinkNode (h : t.Inv K path) (hsl : t.SlotAt sl slot)
    (hslot : t.graph.read slot = some p) (hp : t.deref p = some (.inode n))
    (hb : n.child b = some c) (hc : t.deref c = some (.leaf k v))
    (hn' : n'.Rep (Function.update n.child b none)) (hpre : n'.keyPrefix = n.keyPrefix)
    (hz : t.heap z = none) (hdeg : 2 < degree n.child) :
    (t.shrinkNode sl p z n' c.addr).Inv K (Function.update path ⟨z, n'.type⟩ (path p)) ∧
      t.Drops (t.shrinkNode sl p z n' c.addr) k := by
  obtain ⟨hheap, hptype⟩ := deref_eq_some_iff.mp hp
  obtain ⟨hcheap, hctype⟩ := deref_eq_some_iff.mp hc
  have hpc := addr_ne_of_leaf_inode hp hc
  have hpz := heap_ne_of_deref hp hz
  have hcz := heap_ne_of_deref hc hz
  have hzs : (t.store sl ⟨z, n'.type⟩).heap z = none := (store_heap_eq_none_iff ..).mpr hz
  -- The heap after the steps is the graph after a write of a slot and three of nodes.
  have hgraph : (t.shrinkNode sl p z n' c.addr).graph =
      (((t.graph.write slot ⟨z, n'.type⟩).set p none).set c none).set ⟨z, n'.type⟩
        (some (.inner n.keyPrefix.bytes (Function.update n.child b none))) := by
    rw [Tree.shrinkNode, graph_set n'.type, graph_set c.type, graph_set p.type, h.graph_store hsl]
    · simp only [Option.map_some, Option.map_none, Body.view, hn'.child_eq, hpre]
    · intro _ h0
      obtain ⟨m, hm, hmt⟩ := store_deref_inode t sl ⟨z, n'.type⟩ hp
      rw [hm] at h0
      cases h0
      exact hmt
    · intro _ h1
      cases h1
    · intro _ h0
      rw [set_heap, if_neg hpc.symm, (store_deref_leaf t sl _ hc).1] at h0
      cases h0
      exact hctype
    · intro _ h1
      cases h1
    · intro _ h0
      rw [set_heap, if_neg hcz.symm, set_heap, if_neg hpz.symm, hzs] at h0
      cases h0
    · intro _ h1
      cases h1
      rfl
  refine ⟨⟨?_, ?_⟩, ?_⟩
  · rw [hgraph]
    exact h.graph.shrinkLeaf hslot (graph_node_inode hp) hb (graph_node_leaf_iff.mpr hc)
      (exists_two_of_degree hdeg b) (graph_node_of_heap_none (p := ⟨z, n'.type⟩) hz)
  · intro a m hm
    rw [Tree.shrinkNode, set_heap, set_heap, set_heap] at hm
    split at hm
    · cases hm
      exact hn'.wf
    · split at hm
      · cases hm
      · split at hm
        · cases hm
        · exact h.store_wf hsl _ hm
  -- Of the leaves only the removed one has gone.
  · refine h.drops_of_heap hcheap fun a k' v' => ?_
    rw [Tree.shrinkNode, set_heap, set_heap, set_heap]
    by_cases haz : a = z
    · subst haz
      rw [if_pos rfl, hz]
      simp
    · rw [if_neg haz]
      by_cases hac : a = c.addr
      · simp [hac]
      · rw [if_neg hac]
        by_cases hap : a = p.addr
        · subst hap
          rw [if_pos rfl, hheap]
          simp
        · rw [if_neg hap, store_heap_leaf_iff]
          simp [hac]

/-- A two-child node taken away together with its leaf; the slot leads to the other child. -/
def collapse (t : Tree) (sl : Slot) (p : NodePtr) (l : Nat) (q : NodePtr) : Tree :=
  ((t.store sl q).set p.addr none).set l none

/-- The same with an inner node as the other child, which takes over the prefix. -/
def collapseInode (t : Tree) (sl : Slot) (p : NodePtr) (l : Nat) (q : NodePtr)
    (m' : INode NodePtr) : Tree :=
  (t.collapse sl p l q).set q.addr (some (.inode m'))

theorem graph_collapse (h : t.Inv K path) (hsl : t.SlotAt sl slot)
    (hp : t.deref p = some (.inode n)) (hc : t.deref c = some (.leaf k v)) (q : NodePtr) :
    (t.collapse sl p c.addr q).graph = ((t.graph.write slot q).set p none).set c none := by
  obtain ⟨hcheap, hctype⟩ := deref_eq_some_iff.mp hc
  have hpc := addr_ne_of_leaf_inode hp hc
  rw [collapse, graph_set c.type, graph_set p.type, h.graph_store hsl]
  · rfl
  · intro _ h0
    obtain ⟨m, hm, hmt⟩ := store_deref_inode t sl q hp
    rw [hm] at h0
    cases h0
    exact hmt
  · intro _ h1
    cases h1
  · intro _ h0
    rw [set_heap, if_neg hpc.symm, (store_deref_leaf t sl _ hc).1] at h0
    cases h0
    exact hctype
  · intro _ h1
    cases h1

theorem collapse_wf (h : t.Inv K path) (hsl : t.SlotAt sl slot) {a : Nat}
    (hm : (t.collapse sl p l q).heap a = some (.inode m)) : m.WF := by
  rw [collapse, set_heap, set_heap] at hm
  split at hm
  · cases hm
  · split at hm
    · cases hm
    · exact h.store_wf hsl _ hm

theorem collapse_heap_leaf_iff (hp : t.deref p = some (.inode n)) (a : Nat) (k' v' : List UInt8) :
    (t.collapse sl p l q).heap a = some (.leaf k' v') ↔
      a ≠ l ∧ t.heap a = some (.leaf k' v') := by
  have hheap := (deref_eq_some_iff.mp hp).1
  rw [collapse, set_heap, set_heap]
  by_cases hal : a = l
  · simp [hal]
  · rw [if_neg hal]
    by_cases hap : a = p.addr
    · subst hap
      rw [if_pos rfl, hheap]
      simp
    · rw [if_neg hap, store_heap_leaf_iff]
      simp [hal]

theorem Inv.collapse (h : t.Inv K path) (hsl : t.SlotAt sl slot)
    (hslot : t.graph.read slot = some p) (hp : t.deref p = some (.inode n))
    (hb : n.child b = some c) (hc : t.deref c = some (.leaf k v)) (hb' : n.child b' = some q)
    (hbb : b' ≠ b) (honly : ∀ x, (n.child x).isSome → x = b ∨ x = b')
    (hq : t.deref q = some (.leaf k' v')) :
    (t.collapse sl p c.addr q).Inv K path ∧ t.Drops (t.collapse sl p c.addr q) k := by
  have hcheap := (deref_eq_some_iff.mp hc).1
  refine ⟨⟨?_, fun hm => collapse_wf h hsl hm⟩,
    h.drops_of_heap hcheap fun a k' v' => collapse_heap_leaf_iff hp a k' v'⟩
  have hqleaf := graph_node_leaf_iff.mpr hq
  have hreadq : t.graph.read (.child p b') = some q := by rw [graph_read_child hp, hb']
  have hreadc : t.graph.read (.child p b) = some c := by rw [graph_read_child hp, hb]
  obtain ⟨_, hnode, hstart⟩ := h.graph.live hreadq
  rw [hqleaf, Option.some_inj] at hnode
  subst hnode
  have hfit : slot.start path <+: k' := by
    have hpre := (h.graph.start_isPrefix hslot).trans (List.prefix_append (path p) [b'])
    exact hpre.trans hstart.2
  have hinv := h.graph.merge hslot (graph_node_inode hp) hb (graph_node_leaf_iff.mpr hc) hb' hbb
    honly hqleaf (show Radix.SameKids _ (.leaf k' v') from ⟨rfl, rfl⟩)
    (show path q = k' ∧ _ from ⟨hstart.1, hfit⟩)
  rw [graph_collapse h hsl hp hc q]
  have hqp : q ≠ p := by
    rintro rfl
    rw [hq] at hp
    cases hp
  have hqc : q ≠ c := by
    rintro rfl
    have := h.graph.slot_unique hreadq hreadc
    simp only [Radix.Slot.child.injEq, true_and] at this
    exact hbb this
  have hsame : ∀ g : Radix.Graph NodePtr UInt8 (List UInt8),
      g.node q = some (.leaf k' v') → g.set q (some (.leaf k' v')) = g := by
    intro g hg
    simp only [Radix.Graph.set, ← hg, Function.update_eq_self]
  rw [Radix.Graph.merge, hsame] at hinv
  · exact hinv
  · rw [Radix.Graph.set_node, if_neg hqc, Radix.Graph.set_node, if_neg hqp,
      Radix.write_node_leaf_iff, hqleaf]

theorem Inv.collapseInode (h : t.Inv K path) (hsl : t.SlotAt sl slot)
    (hslot : t.graph.read slot = some p) (hp : t.deref p = some (.inode n))
    (hb : n.child b = some c) (hc : t.deref c = some (.leaf k v)) (hb' : n.child b' = some q)
    (hbb : b' ≠ b) (honly : ∀ x, (n.child x).isSome → x = b ∨ x = b')
    (hq : t.deref q = some (.inode m)) (hm' : m'.Rep m.child) (hmtype : m'.type = m.type)
    (hpre : m'.keyPrefix.bytes = n.keyPrefix.bytes ++ b' :: m.keyPrefix.bytes) :
    (t.collapseInode sl p c.addr q m').Inv K path ∧
      t.Drops (t.collapseInode sl p c.addr q m') k := by
  have hcheap := (deref_eq_some_iff.mp hc).1
  obtain ⟨hqheap, hqtype⟩ := deref_eq_some_iff.mp hq
  have hreadq : t.graph.read (.child p b') = some q := by rw [graph_read_child hp, hb']
  obtain ⟨_, hnode, hstart⟩ := h.graph.live hreadq
  rw [graph_node_inode hq, Option.some_inj] at hnode
  subst hnode
  obtain ⟨_, hnodep, hstartp⟩ := h.graph.live hslot
  rw [graph_node_inode hp, Option.some_inj] at hnodep
  subst hnodep
  have hqc := addr_ne_of_leaf_inode hq hc
  have hqp : q.addr ≠ p.addr := by
    intro heq
    have hpath := h.graph.path_lt_of_child hreadq
    rw [deref_addr_inj hq hp heq] at hpath
    omega
  have hfit : path q = slot.start path ++ m'.keyPrefix.bytes := by
    have h1 : path q = path p ++ [b'] ++ m.keyPrefix.bytes := hstart
    have h2 : path p = slot.start path ++ n.keyPrefix.bytes := hstartp
    rw [h1, h2, hpre]
    simp only [List.append_assoc, List.singleton_append]
  refine ⟨⟨?_, ?_⟩, ?_⟩
  · have hinv := h.graph.merge hslot (graph_node_inode hp) hb (graph_node_leaf_iff.mpr hc) hb' hbb
      honly (graph_node_inode hq)
      (show Radix.SameKids _ (.inner m'.keyPrefix.bytes m'.child) from hm'.child_eq.symm) hfit
    rw [Tree.collapseInode, graph_set q.type, graph_collapse h hsl hp hc q]
    · exact hinv
    · intro _ h0
      obtain ⟨m0, hm0, hmt⟩ := store_deref_inode t sl q hq
      rw [Tree.collapse, set_heap, if_neg hqc, set_heap, if_neg hqp, hm0] at h0
      cases h0
      exact hmt
    · intro _ h1
      cases h1
      exact hmtype.trans hqtype
  · intro a m0 hm0
    rw [Tree.collapseInode, set_heap] at hm0
    split at hm0
    · cases hm0
      exact hm'.wf
    · exact collapse_wf h hsl hm0
  · refine h.drops_of_heap hcheap fun a k' v' => ?_
    rw [Tree.collapseInode, set_heap]
    by_cases haq : a = q.addr
    · subst haq
      rw [if_pos rfl, hqheap]
      simp
    · rw [if_neg haq, collapse_heap_leaf_iff hp]

end RemoveChild

end Tree

end Unodb
