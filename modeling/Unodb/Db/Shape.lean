import Unodb.Db.Run

/-!
# The shape of a tree

The abstract tree behind the root pointer, and that the stored bindings determine it: two trees
that store the same map have the same abstract tree, and with it the same node counts and the same
memory use.
-/

open Arrays Finset

namespace Unodb

/-- A tree without its addresses; the children of an inner node are in the order of their bytes. -/
inductive AbsTree where
  | leaf (key value : List UInt8)
  | inode (type : NodeType) (keyPrefix : List UInt8) (children : List (UInt8 × AbsTree))

/-- The type of a node with a number of children. -/
def NodeType.ofCount (count : Nat) : NodeType :=
  if count ≤ 4 then .i4 else if count ≤ 16 then .i16 else if count ≤ 48 then .i48 else .i256

/-- Every inner node has at least two children and the type for their number. -/
inductive AbsTree.Canonical : AbsTree → Prop where
  | leaf (key value : List UInt8) : Canonical (.leaf key value)
  | inode {type : NodeType} (keyPrefix : List UInt8) {children : List (UInt8 × AbsTree)} :
      2 ≤ children.length → type = .ofCount children.length →
      (∀ c ∈ children, Canonical c.2) → Canonical (.inode type keyPrefix children)

namespace Tree

/-- The abstract tree below a pointer, if it is no deeper than `fuel` levels. -/
def abs (t : Tree) : Nat → NodePtr → Option AbsTree
  | 0, _ => none
  | fuel + 1, p =>
    match t.deref p with
    | none => none
    | some (.leaf key value) => some (.leaf key value)
    | some (.inode n) => do
      let children ← (boundBytes n.child).mapM fun b => do
        let c ← n.child b
        return (b, ← t.abs fuel c)
      return .inode n.type n.keyPrefix.bytes children

/-- The weight of the nodes below a pointer, for a weight of single nodes. -/
def weight (t : Tree) (w : Body → Nat) : Nat → NodePtr → Nat
  | 0, _ => 0
  | fuel + 1, p =>
    match t.deref p with
    | none => 0
    | some (.leaf key value) => w (.leaf key value)
    | some (.inode n) => w (.inode n) + ∑ b, ((n.child b).map (t.weight w fuel)).getD 0

end Tree

/-- The abstract tree of a `db`. -/
def Db.abs (s : Db sizes) : Option AbsTree := s.tree.root.bind (s.tree.abs s.next)

/-! ## 1. Every tree has a shape -/

theorem mapM_eq_some {α β : Type} {f : α → Option β} {g : α → β} {l : List α}
    (h : ∀ a ∈ l, f a = some (g a)) : l.mapM f = some (l.map g) := by
  induction l with
  | nil => rfl
  | cons a l ih =>
    rw [List.mapM_cons, h a List.mem_cons_self, ih fun b hb => h b (List.mem_cons_of_mem a hb)]
    rfl

theorem INode.WF.type_eq_ofCount {P : Type} {n : INode P} (h : n.WF) :
    n.type = .ofCount (degree n.child) ∧ 2 ≤ degree n.child := by
  have hmin := h.minSize_le
  have hcap := h.le_capacity
  unfold NodeType.ofCount
  cases htype : n.type with
  | leaf => exact absurd htype n.type_ne_leaf
  | i4 | i16 | i48 | i256 =>
    rw [htype] at hmin hcap
    simp only [NodeType.minSize, NodeType.capacity] at hmin hcap
    refine ⟨?_, by omega⟩
    split_ifs <;> first | rfl | omega

namespace Db

variable {K K' : Set (List UInt8)} {path path' : NodePtr → List UInt8}
  {lost lost' : NodeType → Nat} {s s' : Db sizes} {p p' : NodePtr} {body : Body}
  {slot slot' : Radix.Slot NodePtr UInt8}

/-- The tree below a pointer is as deep as the fuel allows, so it has a shape. -/
theorem Inv.abs_canonical (h : s.Inv K path lost) {fuel : Nat} (hp : s.tree.deref p = some body)
    (hheight : Radix.HeightLE s.tree.graph fuel p) :
    ∃ T, s.tree.abs fuel p = some T ∧ T.Canonical := by
  induction fuel generalizing p body with
  | zero => exact absurd hheight id
  | succ fuel ih =>
    cases body with
    | leaf key value =>
      refine ⟨.leaf key value, ?_, .leaf key value⟩
      simp only [Tree.abs, hp]
    | inode n =>
      have hwf : n.WF := h.tree.wf (Tree.deref_eq_some_iff.mp hp).1
      have hchild : ∀ b, ∃ T, b ∈ boundBytes n.child →
          ∃ c, n.child b = some c ∧ s.tree.abs fuel c = some T ∧ T.Canonical := by
        intro b
        by_cases hb : b ∈ boundBytes n.child
        · obtain ⟨c, hc⟩ := Option.isSome_iff_exists.mp (List.mem_filter.mp hb).2
          have hread : s.tree.graph.read (.child p b) = some c := by
            rw [Tree.graph_read_child hp, hc]
          obtain ⟨m, hm, -⟩ := h.tree.graph.live hread
          obtain ⟨body', hbody', -⟩ := Option.map_eq_some_iff.mp hm
          obtain ⟨T, hT, hcanon⟩ := ih hbody' (hheight (Tree.graph_node_inode hp) hc)
          exact ⟨T, fun _ => ⟨c, hc, hT, hcanon⟩⟩
        · exact ⟨.leaf [] [], fun hb' => absurd hb' hb⟩
      choose child hchild using hchild
      obtain ⟨htype, hdeg⟩ := hwf.type_eq_ofCount
      have hlen : ((boundBytes n.child).map fun b => (b, child b)).length = degree n.child := by
        rw [List.length_map, boundBytes_length]
      refine ⟨.inode n.type n.keyPrefix.bytes ((boundBytes n.child).map fun b => (b, child b)), ?_,
        ?_⟩
      · simp only [Tree.abs, hp]
        rw [mapM_eq_some (g := fun b => (b, child b))]
        · rfl
        · intro b hb
          obtain ⟨c, hc, hT, -⟩ := hchild b hb
          rw [hc]
          simp only [Option.bind_eq_bind, Option.bind_some, hT]
          rfl
      · apply AbsTree.Canonical.inode
        · rw [hlen]
          exact hdeg
        · rw [hlen]
          exact htype
        · intro c hc
          obtain ⟨b, hb, rfl⟩ := List.mem_map.mp hc
          obtain ⟨-, -, -, hcanon⟩ := hchild b hb
          exact hcanon

/-! ## 2. The map determines the shape -/

/-- A weight that does not see addresses. -/
def Blind (w : Body → Nat) : Prop :=
  ∀ n n' : INode NodePtr, n.type = n'.type → w (.inode n) = w (.inode n')

theorem blind_countType (type : NodeType) : Blind (Body.countType type) := by
  intro n n' htype
  rw [Body.countType, Body.countType, Body.type, Body.type, htype]

theorem blind_sizes : Blind sizes.of := by
  intro n n' htype
  rw [Sizes.of, Sizes.of, htype]

theorem mapM_congr_some {α β : Type} {f f' : α → Option β} {l : List α}
    (h : ∀ a ∈ l, f a = f' a) : l.mapM f = l.mapM f' := by
  induction l with
  | nil => rfl
  | cons a l ih =>
    rw [List.mapM_cons, List.mapM_cons, h a List.mem_cons_self,
      ih fun b hb => h b (List.mem_cons_of_mem a hb)]

theorem isSome_cases {α β : Type} {x : Option α} {y : Option β} (h : x.isSome ↔ y.isSome) :
    (x = none ∧ y = none) ∨ ∃ a b, x = some a ∧ y = some b := by
  cases x <;> cases y <;> simp_all

/-- What hangs on two slots up to which the same string is spelt has one shape. -/
theorem Inv.same_shape (h : s.Inv K path lost) (h' : s'.Inv K' path' lost')
    (hsame : ∀ k v, s.tree.Binds k v ↔ s'.tree.Binds k v) {fuel fuel' : Nat}
    (hread : s.tree.graph.read slot = some p) (hread' : s'.tree.graph.read slot' = some p')
    (hstart : slot.start path = slot'.start path')
    (hheight : Radix.HeightLE s.tree.graph fuel p)
    (hheight' : Radix.HeightLE s'.tree.graph fuel' p') :
    s.tree.abs fuel p = s'.tree.abs fuel' p' ∧
      ∀ w, Blind w → s.tree.weight w fuel p = s'.tree.weight w fuel' p' := by
  induction fuel generalizing fuel' slot slot' p p' with
  | zero => exact absurd hheight id
  | succ fuel ih =>
    cases fuel' with
    | zero => exact absurd hheight' id
    | succ fuel' =>
      have hbinds : ∀ k v, s.tree.graph.Binds k v ↔ s'.tree.graph.Binds k v := by
        intro k v
        rw [Tree.binds_iff, Tree.binds_iff]
        exact hsame k v
      obtain ⟨hpath, m, m', hm, hm', halike⟩ :=
        h.tree.graph.alike h'.tree.graph hbinds hread hread' hstart
      obtain ⟨body, hp, rfl⟩ := Option.map_eq_some_iff.mp hm
      obtain ⟨body', hp', rfl⟩ := Option.map_eq_some_iff.mp hm'
      cases body with
      | leaf k v =>
        cases body' with
        | inode n' => exact absurd halike id
        | leaf k' v' =>
          obtain ⟨rfl, rfl⟩ := halike
          simp only [Tree.abs, Tree.weight, hp, hp', implies_true, and_self]
      | inode n =>
        cases body' with
        | leaf k' v' => exact absurd halike id
        | inode n' =>
          obtain ⟨hpre, hbytes⟩ := halike
          have hwf : n.WF := h.tree.wf (Tree.deref_eq_some_iff.mp hp).1
          have hwf' : n'.WF := h'.tree.wf (Tree.deref_eq_some_iff.mp hp').1
          have hbound : boundBytes n.child = boundBytes n'.child := by
            unfold boundBytes
            exact List.filter_congr fun b _ => Bool.eq_iff_iff.mpr (hbytes b)
          have htype : n.type = n'.type := by
            rw [hwf.type_eq_ofCount.1, hwf'.type_eq_ofCount.1, ← boundBytes_length,
              ← boundBytes_length, hbound]
          -- The children at one byte hang on slots with one string again.
          have hchild : ∀ {b c c'}, n.child b = some c → n'.child b = some c' →
              s.tree.abs fuel c = s'.tree.abs fuel' c' ∧
              ∀ w, Blind w → s.tree.weight w fuel c = s'.tree.weight w fuel' c' := by
            intro b c c' hc hc'
            have hslot : s.tree.graph.read (.child p b) = some c := by
              rw [Tree.graph_read_child hp, hc]
            have hslot' : s'.tree.graph.read (.child p' b) = some c' := by
              rw [Tree.graph_read_child hp', hc']
            refine ih hslot hslot' ?_ (hheight (Tree.graph_node_inode hp) hc)
              (hheight' (Tree.graph_node_inode hp') hc')
            rw [Radix.Slot.start_child, Radix.Slot.start_child, hpath]
          constructor
          · simp only [Tree.abs, hp, hp']
            rw [hbound, htype, show n.keyPrefix.bytes = n'.keyPrefix.bytes from hpre,
              mapM_congr_some]
            intro b hb
            rcases isSome_cases (hbytes b) with ⟨hc, hc'⟩ | ⟨c, c', hc, hc'⟩
            · rw [hc, hc']
              rfl
            · rw [hc, hc']
              simp only [Option.bind_eq_bind, Option.bind_some, (hchild hc hc').1]
          · intro w hw
            simp only [Tree.weight, hp, hp']
            rw [hw n n' htype]
            refine congrArg (w (.inode n') + ·) (sum_congr rfl fun b _ => ?_)
            rcases isSome_cases (hbytes b) with ⟨hc, hc'⟩ | ⟨c, c', hc, hc'⟩
            · rw [hc, hc']
              rfl
            · rw [hc, hc']
              exact (hchild hc hc').2 w hw

/-! ## 3. Counters -/

open Classical in
/-- The addresses of the nodes below a node, as a finite set. -/
noncomputable def belowSet (s : Db sizes) (path : NodePtr → List UInt8) (p : NodePtr) : Finset Nat :=
  (range s.next).filter (· ∈ s.Below path p)

theorem Inv.mem_belowSet (h : s.Inv K path lost) {a : Nat} :
    a ∈ s.belowSet path p ↔ a ∈ s.Below path p := by
  simp only [belowSet, mem_filter, mem_range, and_iff_right_iff_imp]
  rintro ⟨q, body, hq, rfl, -⟩
  exact h.accounted.lt_next (Tree.deref_eq_some_iff.mp hq).1

/-- The nodes below a node weigh what its subtree does. -/
theorem Inv.sum_below (h : s.Inv K path lost) (w : Body → Nat) {fuel : Nat}
    (hp : s.tree.deref p = some body) (hheight : Radix.HeightLE s.tree.graph fuel p) :
    ∑ a ∈ s.belowSet path p, ((s.tree.heap a).map w).getD 0 = s.tree.weight w fuel p := by
  induction fuel generalizing p body with
  | zero => exact absurd hheight id
  | succ fuel ih =>
    have hheap := (Tree.deref_eq_some_iff.mp hp).1
    cases body with
    | leaf k v =>
      have hset : s.belowSet path p = {p.addr} := by
        ext a
        rw [h.mem_belowSet, h.below_leaf hp, Set.mem_singleton_iff, mem_singleton]
      rw [hset, sum_singleton, hheap]
      simp only [Tree.weight, hp]
      rfl
    | inode n =>
      have hset : s.belowSet path p = insert p.addr
          (univ.biUnion fun b => ((n.child b).map (s.belowSet path)).getD ∅) := by
        ext a
        simp only [h.mem_belowSet, h.mem_below_inode hp, mem_insert, mem_biUnion, mem_univ,
          true_and]
        refine or_congr_right (exists_congr fun b => ?_)
        cases hc : n.child b with
        | none => simp
        | some c => simp [h.mem_belowSet]
      have hnot : p.addr ∉ univ.biUnion fun b => ((n.child b).map (s.belowSet path)).getD ∅ := by
        simp only [mem_biUnion, mem_univ, true_and, not_exists]
        intro b hmem
        cases hc : n.child b with
        | none => simp [hc] at hmem
        | some c =>
          rw [hc, Option.map_some, Option.getD_some, h.mem_belowSet] at hmem
          exact h.not_mem_below_child hp hc hmem
      have hdisj : ((univ : Finset UInt8) : Set UInt8).PairwiseDisjoint fun b =>
          ((n.child b).map (s.belowSet path)).getD ∅ := by
        intro b _ b' _ hbb
        refine disjoint_left.mpr fun a ha ha' => ?_
        cases hc : n.child b with
        | none => simp [hc] at ha
        | some c =>
          cases hc' : n.child b' with
          | none => simp [hc'] at ha'
          | some c' =>
            simp only [hc, hc', Option.map_some, Option.getD_some, h.mem_belowSet] at ha ha'
            exact h.below_disjoint hp hc hc' hbb ha ha'
      rw [hset, sum_insert hnot, sum_biUnion hdisj, hheap]
      simp only [Tree.weight, hp]
      refine congrArg (w (.inode n) + ·) (sum_congr rfl fun b _ => ?_)
      cases hc : n.child b with
      | none => rfl
      | some c =>
        have hread : s.tree.graph.read (.child p b) = some c := by rw [Tree.graph_read_child hp, hc]
        obtain ⟨m, hm, -⟩ := h.tree.graph.live hread
        obtain ⟨body', hbody', -⟩ := Option.map_eq_some_iff.mp hm
        exact ih hbody' (hheight (Tree.graph_node_inode hp) hc)

theorem Inv.height_root (h : s.Inv K path lost) (hroot : s.tree.root = some p) :
    Radix.HeightLE s.tree.graph s.next p := by
  obtain ⟨m, hm, -⟩ := h.tree.graph.live (show s.tree.graph.read .root = some p from hroot)
  obtain ⟨body, hbody, -⟩ := Option.map_eq_some_iff.mp hm
  exact h.heightLE hbody

/-- All nodes together weigh what the tree does. -/
theorem Inv.total_eq (h : s.Inv K path lost) (w : Body → Nat) :
    s.tree.total w s.next = (s.tree.root.map (s.tree.weight w s.next)).getD 0 := by
  cases hroot : s.tree.root with
  | none =>
    refine sum_eq_zero fun a _ => ?_
    cases ha : s.tree.heap a with
    | none => rfl
    | some body =>
      have hnode := h.tree.graph.node_eq_none hroot ⟨a, body.type⟩
      rw [graph_node_of_deref (Tree.deref_eq_some_iff.mpr ⟨ha, rfl⟩)] at hnode
      cases hnode
  | some root =>
    obtain ⟨m, hm, -⟩ := h.tree.graph.live (show s.tree.graph.read .root = some root from hroot)
    obtain ⟨body, hbody, -⟩ := Option.map_eq_some_iff.mp hm
    rw [Option.map_some, Option.getD_some, ← h.sum_below w hbody (h.heightLE hbody)]
    -- What is not below the root is not in memory.
    have hsub : s.belowSet path root ⊆ range s.next := by
      intro a ha
      simp only [belowSet, mem_filter] at ha
      exact ha.1
    refine (sum_subset hsub fun a _ ha => ?_).symm
    cases hheap : s.tree.heap a with
    | none => rfl
    | some body' =>
      have hderef : s.tree.deref ⟨a, body'.type⟩ = some body' :=
        Tree.deref_eq_some_iff.mpr ⟨hheap, rfl⟩
      exact absurd (h.mem_belowSet.mpr ⟨_, _, hderef, rfl,
        h.tree.graph.below_root hroot (graph_node_of_deref hderef)⟩) ha

theorem Inv.same_tree (h : s.Inv K path lost) (h' : s'.Inv K' path' lost')
    (hsame : ∀ k v, s.tree.Binds k v ↔ s'.tree.Binds k v) :
    s.abs = s'.abs ∧ ∀ w, Blind w → s.tree.total w s.next = s'.tree.total w s'.next := by
  have hempty : s.isEmpty = s'.isEmpty := by
    rw [Bool.eq_iff_iff, isEmpty_iff h.tree, isEmpty_iff h'.tree]
    simp only [hsame]
  simp only [h.total_eq, h'.total_eq, Db.abs]
  cases hroot : s.tree.root with
  | none =>
    cases hroot' : s'.tree.root with
    | none => exact ⟨rfl, fun _ _ => rfl⟩
    | some root' => simp [isEmpty, hroot, hroot'] at hempty
  | some root =>
    cases hroot' : s'.tree.root with
    | none => simp [isEmpty, hroot, hroot'] at hempty
    | some root' =>
      have hread : s.tree.graph.read .root = some root := hroot
      have hread' : s'.tree.graph.read .root = some root' := hroot'
      exact h.same_shape h' hsame hread hread' rfl (h.height_root hroot) (h'.height_root hroot')

/-! ## 4. Two runs -/

/-- Runs of `db<std::uint64_t>` that end with the same bindings end with the same abstract tree, in
    canonical shape, and the same counters of the nodes in it. -/
theorem run_u64_canonical (calls calls' : List (Call (BitVec 64)))
    (hsame : ∀ k v, (run U64Key.make calls (Db.empty sizes)).2.tree.Binds k v ↔
      (run U64Key.make calls' (Db.empty sizes)).2.tree.Binds k v) :
    let s := (run U64Key.make calls (Db.empty sizes)).2
    let s' := (run U64Key.make calls' (Db.empty sizes)).2
    s.abs = s'.abs ∧ (s.tree.root ≠ none → ∃ T, s.abs = some T ∧ T.Canonical) ∧
      s.stats.nodeCounts = s'.stats.nodeCounts ∧
      s.stats.currentMemoryUse = s'.stats.currentMemoryUse := by
  intro s s'
  obtain ⟨-, ⟨path, lost, h⟩, -⟩ := run_u64_spec calls
  obtain ⟨-, ⟨path', lost', h'⟩, -⟩ := run_u64_spec calls'
  obtain ⟨habs, htotal⟩ := h.same_tree h' hsame
  refine ⟨habs, ?_, ?_, ?_⟩
  · intro hroot
    obtain ⟨root, hroot⟩ := Option.ne_none_iff_exists'.mp hroot
    obtain ⟨m, hm, -⟩ := h.tree.graph.live (show s.tree.graph.read .root = some root from hroot)
    obtain ⟨body, hbody, -⟩ := Option.map_eq_some_iff.mp hm
    rw [Db.abs, hroot, Option.bind_some]
    exact h.abs_canonical hbody (h.heightLE hbody)
  · funext type
    rw [h.accounted.counts, h'.accounted.counts]
    exact htotal _ (blind_countType type)
  · rw [h.accounted.memory, h'.accounted.memory]
    exact htotal _ blind_sizes

/-- What a tree stores is what the map it represents binds. -/
theorem Represents.binds_eq {κ E : Type} [LawfulArtKey κ] {encode : E → κ} {m : RefMap E}
    (hrep : Represents encode s m) (k v : List UInt8) :
    s.tree.Binds k v ↔ ∃ x, view encode x = k ∧ m x = some v := by
  constructor
  · intro hb
    obtain ⟨x, rfl⟩ := hrep.onto hb
    exact ⟨x, rfl, (hrep.binds_iff x v).mp hb⟩
  · rintro ⟨x, rfl, hx⟩
    exact (hrep.binds_iff x v).mpr hx

/-- Two keys, and the same two keys after a third one has come and gone. -/
theorem run_u64_canonical_two :
    (run U64Key.make [.insert 1 [10], .insert 2 [20]] (Db.empty .db)).2.abs =
      (run U64Key.make [.insert 2 [20], .insert 3 [30], .insert 1 [10], .remove 3]
      (Db.empty .db)).2.abs := by
  refine (run_u64_canonical _ _ fun k v => ?_).1
  rw [(run_u64_spec _).2.2.binds_eq, (run_u64_spec _).2.2.binds_eq]
  have hmap : (RefMap.run (fun _ v => valueRefusal v) [.insert (1 : BitVec 64) [10], .insert 2 [20]]
        fun _ => none).2 =
      (RefMap.run (fun _ v => valueRefusal v)
        [.insert 2 [20], .insert 3 [30], .insert 1 [10], .remove 3] fun _ => none).2 := by
    funext k
    simp [RefMap.run, RefMap.step, valueRefusal, maxValueSize, Function.update_apply]
    split_ifs <;> simp_all
  rw [hmap]

end Db

end Unodb
