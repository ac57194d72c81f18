import Unodb.Db.Remove
import Unodb.Node.Iter

/-!
# Clearing a `db`

`delete_subtree` frees the nodes below a node and no others, so `clear` leaves an empty tree.
-/

open Arrays

namespace Unodb

namespace Db

variable {K : Set (List UInt8)} {path : NodePtr → List UInt8} {lost : NodeType → Nat}
  {s0 s : Db sizes} {p : NodePtr} {n : INode NodePtr} {body : Body} {D : Set Nat}

/-- The state reached from `s0` by freeing the nodes at the addresses in `D`. -/
structure Freed (s0 : Db sizes) (D : Set Nat) (s : Db sizes) : Prop where
  heap_iff : ∀ {a body}, s.tree.heap a = some body ↔ a ∉ D ∧ s0.tree.heap a = some body
  next_eq : s.next = s0.next
  accounted : Accounted sizes s.tree s.next s.stats
  growing_eq : s.stats.growingInodeCounts = s0.stats.growingInodeCounts
  shrinking_eq : s.stats.shrinkingInodeCounts = s0.stats.shrinkingInodeCounts
  splits_eq : s.stats.keyPrefixSplits = s0.stats.keyPrefixSplits
  memory_eq : s.memory = s0.memory

/-- The addresses of the nodes below a node. -/
def Below (s0 : Db sizes) (path : NodePtr → List UInt8) (p : NodePtr) : Set Nat :=
  {a | ∃ q body, s0.tree.deref q = some body ∧ q.addr = a ∧ path p <+: path q}

theorem mem_below_self (hp : s0.tree.deref p = some body) : p.addr ∈ s0.Below path p :=
  ⟨p, body, hp, rfl, List.prefix_rfl⟩

theorem Freed.deref (h : s0.Freed D s) (hp : s0.tree.deref p = some body) (hD : p.addr ∉ D) :
    s.tree.deref p = some body := by
  obtain ⟨hheap, htype⟩ := Tree.deref_eq_some_iff.mp hp
  exact Tree.deref_eq_some_iff.mpr ⟨h.heap_iff.mpr ⟨hD, hheap⟩, htype⟩

theorem Freed.free (h : s0.Freed D s) (hp : s0.tree.deref p = some body) (hD : p.addr ∉ D) :
    Db.free p s = .ok () (s.freed p body) ∧ s0.Freed (insert p.addr D) (s.freed p body) := by
  have hderef := h.deref hp hD
  refine ⟨free_ok h.accounted hderef, ?_, h.next_eq,
    h.accounted.free (Tree.deref_eq_some_iff.mp hderef).1, h.growing_eq, h.shrinking_eq,
    h.splits_eq, h.memory_eq⟩
  intro a body'
  rw [freed, Tree.set_heap, Set.mem_insert_iff, not_or]
  by_cases ha : a = p.addr
  · simp [ha]
  · rw [if_neg ha, h.heap_iff]
    simp [ha]

theorem graph_node_of_deref {q : NodePtr} (hq : s0.tree.deref q = some body) :
    s0.tree.graph.node q = some body.view := by
  simp only [Tree.graph, hq, Option.map_some]

section Below

variable (h : s0.Inv K path lost)
include h

theorem Inv.below_leaf {k v : List UInt8} (hp : s0.tree.deref p = some (.leaf k v)) :
    s0.Below path p = {p.addr} := by
  ext a
  constructor
  · rintro ⟨q, body, hq, rfl, hpq⟩
    rw [h.tree.graph.below_leaf (graph_node_of_deref hp) (graph_node_of_deref hq) hpq]
    rfl
  · rintro rfl
    exact mem_below_self hp

/-- The nodes below an inner node are the node and those below its children. -/
theorem Inv.mem_below_inode (hp : s0.tree.deref p = some (.inode n)) {a : Nat} :
    a ∈ s0.Below path p ↔ a = p.addr ∨ ∃ b c, n.child b = some c ∧ a ∈ s0.Below path c := by
  constructor
  · rintro ⟨q, body, hq, rfl, hpq⟩
    rcases h.tree.graph.below_child (Tree.graph_node_inode hp) (graph_node_of_deref hq) hpq with
      heq | ⟨b, c, hc, -, hcq⟩
    · exact .inl (congrArg NodePtr.addr heq)
    · exact .inr ⟨b, c, hc, q, body, hq, rfl, hcq⟩
  · rintro (rfl | ⟨b, c, hc, q, body, hq, rfl, hcq⟩)
    · exact mem_below_self hp
    · refine ⟨q, body, hq, rfl, List.IsPrefix.trans ?_ hcq⟩
      have hread : s0.tree.graph.read (.child p b) = some c := by
        rw [Tree.graph_read_child hp, hc]
      exact (List.prefix_append _ _).trans (h.tree.graph.start_isPrefix hread)

/-- Nothing lies below two children of a node. -/
theorem Inv.below_disjoint (hp : s0.tree.deref p = some (.inode n)) {b b' : UInt8}
    {c c' : NodePtr} (hc : n.child b = some c) (hc' : n.child b' = some c') (hbb : b ≠ b') {a : Nat}
    (ha : a ∈ s0.Below path c) : a ∉ s0.Below path c' := by
  rintro ⟨q', body', hq', hqa', hcq'⟩
  obtain ⟨q, body, hq, hqa, hcq⟩ := ha
  rw [Tree.deref_addr_inj hq hq' (hqa.trans hqa'.symm)] at hcq
  have hstart : ∀ {x z}, n.child x = some z → path z <+: path q' → path p ++ [x] <+: path q' := by
    intro x z hz hzq
    have hread : s0.tree.graph.read (.child p x) = some z := by rw [Tree.graph_read_child hp, hz]
    exact (h.tree.graph.start_isPrefix hread).trans hzq
  exact hbb (Radix.snoc_inj_of_isPrefix (hstart hc hcq) (hstart hc' hcq'))

/-- A node is not below its children. -/
theorem Inv.not_mem_below_child (hp : s0.tree.deref p = some (.inode n)) {b : UInt8} {c : NodePtr}
    (hc : n.child b = some c) : p.addr ∉ s0.Below path c := by
  rintro ⟨q, body, hq, hqa, hcq⟩
  rw [Tree.deref_addr_inj hq hp hqa] at hcq
  have hread : s0.tree.graph.read (.child p b) = some c := by rw [Tree.graph_read_child hp, hc]
  have := h.tree.graph.path_lt_of_child hread
  have := hcq.length_le
  omega

/-- The loop over the children of a node. -/
theorem Inv.deleteSubtrees_spec {fuel : Nat}
    (ih : ∀ {p body D s}, s0.tree.deref p = some body →
      Radix.HeightLE s0.tree.graph fuel p → s0.Freed D s → (∀ a ∈ s0.Below path p, a ∉ D) →
      ∃ s', deleteSubtree fuel p s = .ok () s' ∧ s0.Freed (D ∪ s0.Below path p) s')
    (hp : s0.tree.deref p = some (.inode n))
    (hheight : Radix.HeightLE s0.tree.graph (fuel + 1) p) (bs : List UInt8) (hnodup : bs.Nodup)
    (hbound : ∀ b ∈ bs, (n.child b).isSome) (hfreed : s0.Freed D s)
    (hD : ∀ b ∈ bs, ∀ c, n.child b = some c → ∀ a ∈ s0.Below path c, a ∉ D) :
    ∃ s', (bs.filterMap n.child).forM (deleteSubtree fuel) s = .ok () s' ∧
      s0.Freed (D ∪ {a | ∃ b ∈ bs, ∃ c, n.child b = some c ∧ a ∈ s0.Below path c}) s' := by
  induction bs generalizing D s with
  | nil =>
    refine ⟨s, rfl, ?_⟩
    have hempty : {a | ∃ b ∈ ([] : List UInt8), ∃ c, n.child b = some c ∧ a ∈ s0.Below path c} =
        (∅ : Set Nat) := by
      ext a
      simp
    rw [hempty, Set.union_empty]
    exact hfreed
  | cons b bs ihl =>
    obtain ⟨c, hc⟩ := Option.isSome_iff_exists.mp (hbound b List.mem_cons_self)
    have hread : s0.tree.graph.read (.child p b) = some c := by rw [Tree.graph_read_child hp, hc]
    obtain ⟨m, hm, -⟩ := h.tree.graph.live hread
    obtain ⟨body, hbody, -⟩ := Option.map_eq_some_iff.mp hm
    obtain ⟨s1, hs1, hfreed1⟩ := ih hbody (hheight (Tree.graph_node_inode hp) hc) hfreed
      (hD b List.mem_cons_self c hc)
    obtain ⟨hnot, hnodup'⟩ := List.nodup_cons.mp hnodup
    obtain ⟨s2, hs2, hfreed2⟩ := ihl hnodup' (fun x hx => hbound x (List.mem_cons_of_mem _ hx))
      hfreed1 (by
        intro x hx z hz a ha hmem
        rcases hmem with hmem | hmem
        · exact hD x (List.mem_cons_of_mem _ hx) z hz a ha hmem
        · have hbx : b ≠ x := by
            rintro rfl
            exact hnot hx
          exact h.below_disjoint hp hc hz hbx hmem ha)
    refine ⟨s2, ?_, ?_⟩
    · rw [List.filterMap_cons_some hc]
      change (deleteSubtree fuel c >>= fun _ => (bs.filterMap n.child).forM _) s = _
      rw [DbM.bind_ok hs1]
      exact hs2
    · have hset : D ∪ {a | ∃ x ∈ b :: bs, ∃ z, n.child x = some z ∧ a ∈ s0.Below path z} =
          D ∪ s0.Below path c ∪ {a | ∃ x ∈ bs, ∃ z, n.child x = some z ∧ a ∈ s0.Below path z} := by
        ext a
        simp only [Set.mem_union, Set.mem_ofPred_eq, List.mem_cons]
        constructor
        · rintro (hd | ⟨x, rfl | hx, z, hz, ha⟩)
          · exact .inl (.inl hd)
          · rw [hc, Option.some_inj] at hz
            exact .inl (.inr (hz ▸ ha))
          · exact .inr ⟨x, hx, z, hz, ha⟩
        · rintro ((hd | ha) | ⟨x, hx, z, hz, ha⟩)
          · exact .inl hd
          · exact .inr ⟨b, .inl rfl, c, hc, ha⟩
          · exact .inr ⟨x, .inr hx, z, hz, ha⟩
      rw [hset]
      exact hfreed2

/-- `delete_subtree` frees what lies below a node, and nothing else. -/
theorem Inv.deleteSubtree_spec {fuel : Nat} (hp : s0.tree.deref p = some body)
    (hheight : Radix.HeightLE s0.tree.graph fuel p) (hfreed : s0.Freed D s)
    (hD : ∀ a ∈ s0.Below path p, a ∉ D) :
    ∃ s', deleteSubtree fuel p s = .ok () s' ∧ s0.Freed (D ∪ s0.Below path p) s' := by
  induction fuel generalizing p body D s with
  | zero => exact absurd hheight id
  | succ fuel ih =>
    have htag := (Tree.deref_eq_some_iff.mp hp).2
    cases body with
    | leaf k v =>
      have hptype : p.type = .leaf := htag.symm
      obtain ⟨hfree, hfreed'⟩ := hfreed.free hp (hD _ (mem_below_self hp))
      refine ⟨s.freed p (.leaf k v), ?_, ?_⟩
      · rw [deleteSubtree, if_neg (not_not.mpr hptype)]
        exact hfree
      · rw [h.below_leaf hp, Set.union_singleton]
        exact hfreed'
    | inode n =>
      have hptype : p.type ≠ .leaf := htag ▸ n.type_ne_leaf
      have hwf : n.WF := h.tree.wf (Tree.deref_eq_some_iff.mp hp).1
      obtain ⟨bs, hnodup, hmem, hsub⟩ := hwf.subtrees
      obtain ⟨s1, hs1, hfreed1⟩ := h.deleteSubtrees_spec ih hp hheight bs hnodup
        (fun b hb => (hmem b).mp hb) hfreed
        (fun b _ c hc a ha => hD a ((h.mem_below_inode hp).mpr (.inr ⟨b, c, hc, ha⟩)))
      have hnot : p.addr ∉ D ∪ {a | ∃ b ∈ bs, ∃ c, n.child b = some c ∧ a ∈ s0.Below path c} := by
        rintro (hd | ⟨b, -, c, hc, ha⟩)
        · exact hD _ (mem_below_self hp) hd
        · exact h.not_mem_below_child hp hc ha
      obtain ⟨hfree, hfreed2⟩ := hfreed1.free hp hnot
      refine ⟨s1.freed p (.inode n), ?_, ?_⟩
      · rw [deleteSubtree, if_pos hptype,
          DbM.bind_ok (readInode_ok (hfreed.deref hp (hD _ (mem_below_self hp)))),
          DbM.bind_lift (assertThat_pos hwf.subtrees_length), hsub, DbM.bind_ok hs1]
        exact hfree
      · have hset : D ∪ s0.Below path p = insert p.addr
            (D ∪ {a | ∃ b ∈ bs, ∃ c, n.child b = some c ∧ a ∈ s0.Below path c}) := by
          ext a
          simp only [Set.mem_union, Set.mem_insert_iff, Set.mem_ofPred_eq, h.mem_below_inode hp]
          constructor
          · rintro (hd | rfl | ⟨b, c, hc, ha⟩)
            · exact .inr (.inl hd)
            · exact .inl rfl
            · exact .inr (.inr ⟨b, (hmem b).mpr (by rw [hc]; rfl), c, hc, ha⟩)
          · rintro (rfl | hd | ⟨b, -, c, hc, ha⟩)
            · exact .inr (.inl rfl)
            · exact .inl hd
            · exact .inr (.inr ⟨b, c, hc, ha⟩)
        rw [hset]
        exact hfreed2

/-- All nodes lie below the root, on paths no longer than the number of nodes. -/
theorem Inv.heightLE (hp : s0.tree.deref p = some body) :
    Radix.HeightLE s0.tree.graph s0.next p := by
  let F : Finset NodePtr := (Finset.range s0.next).image fun a =>
    ⟨a, ((s0.tree.heap a).map Body.type).getD .leaf⟩
  have hF : ∀ {x m}, s0.tree.graph.node x = some m → x ∈ F := by
    intro x m hx
    obtain ⟨body', hbody', -⟩ := Option.map_eq_some_iff.mp hx
    obtain ⟨hheap, htype⟩ := Tree.deref_eq_some_iff.mp hbody'
    refine Finset.mem_image.mpr ⟨x.addr, Finset.mem_range.mpr (h.accounted.lt_next hheap), ?_⟩
    rw [hheap, Option.map_some, Option.getD_some, htype]
  have hcard : F.card ≤ s0.next := Finset.card_image_le.trans (Finset.card_range _).le
  exact (h.tree.graph.heightLE hF (graph_node_of_deref hp)).mono hcard

/-- The nodes that are below the root are all nodes. -/
theorem Inv.deleteRoot_spec :
    ∃ s', s0.tree.root.forM (deleteSubtree s0.next) s0 = .ok () s' ∧
      (∀ a, s'.tree.heap a = none) ∧ ∃ D, s0.Freed D s' := by
  have hfreed : s0.Freed ∅ s0 := ⟨by simp, rfl, h.accounted, rfl, rfl, rfl, rfl⟩
  cases hroot : s0.tree.root with
  | none =>
    refine ⟨s0, rfl, fun a => ?_, ∅, hfreed⟩
    cases ha : s0.tree.heap a with
    | none => rfl
    | some body =>
      have hnode := h.tree.graph.node_eq_none hroot ⟨a, body.type⟩
      rw [graph_node_of_deref (Tree.deref_eq_some_iff.mpr ⟨ha, rfl⟩)] at hnode
      cases hnode
  | some root =>
    have hread : s0.tree.graph.read .root = some root := hroot
    obtain ⟨m, hm, -⟩ := h.tree.graph.live hread
    obtain ⟨body, hbody, -⟩ := Option.map_eq_some_iff.mp hm
    obtain ⟨s', hs', hfreed'⟩ := h.deleteSubtree_spec hbody (h.heightLE hbody) hfreed (by simp)
    refine ⟨s', hs', fun a => ?_, _, hfreed'⟩
    cases ha : s'.tree.heap a with
    | none => rfl
    | some body' =>
      obtain ⟨hnot, ha0⟩ := hfreed'.heap_iff.mp ha
      have hderef : s0.tree.deref ⟨a, body'.type⟩ = some body' :=
        Tree.deref_eq_some_iff.mpr ⟨ha0, rfl⟩
      exact absurd (.inr ⟨_, _, hderef, rfl,
        h.tree.graph.below_root hroot (graph_node_of_deref hderef)⟩) hnot

end Below

/-- A tree without nodes satisfies the invariant of trees. -/
theorem Tree.Inv.of_empty {K : Set (List UInt8)} {t : Tree} {path : NodePtr → List UInt8}
    (hroot : t.root = none) (hheap : ∀ a, t.heap a = none) : t.Inv K path := by
  have hnode : ∀ x, t.graph.node x = none := fun x => Tree.graph_node_of_heap_none (hheap _)
  refine ⟨⟨?_, ?_, ?_, ?_, 0, ?_⟩, ?_⟩
  · intro slot x hx
    cases slot with
    | root => exact absurd (hroot.symm.trans hx) (by simp)
    | child a b =>
      rw [Radix.Graph.read, hnode] at hx
      cases hx
  all_goals
    intros
    simp_all

/-- The counters of a tree without nodes. -/
theorem Accounted.of_empty {sizes : Sizes} {t : Tree} {next : Nat} {st : Stats}
    (hheap : ∀ a, t.heap a = none) (hcounts : ∀ type, st.nodeCounts type = 0)
    (hmemory : st.currentMemoryUse = 0) : Accounted sizes t next st := by
  have htotal : ∀ weight, t.total weight next = 0 := by
    intro weight
    simp [Tree.total, hheap]
  exact ⟨fun _ => hheap _, fun type => by rw [htotal, hcounts], by rw [htotal, hmemory]⟩

theorem Inv.clear_spec (h : s0.Inv K path lost) :
    ∃ s', Db.clear s0 = .ok () s' ∧ (∀ k v, ¬ s'.tree.Binds k v) ∧
      s'.Inv K path fun type => lost type + s0.stats.countFrom type := by
  obtain ⟨s1, hs1, hheap, D, hfreed⟩ := h.deleteRoot_spec
  have htotal : ∀ weight, s1.tree.total weight s1.next = 0 := by
    intro weight
    simp [Tree.total, hheap]
  have hleaf : s1.stats.nodeCounts .leaf = 0 := by
    rw [hfreed.accounted.counts, htotal]
  refine ⟨{ s1 with tree.root := none, stats := s1.stats.cleared }, ?_, ?_, ?_⟩
  · have hdelete : deleteRootSubtree s0 = .ok () s1 := by
      rw [deleteRootSubtree, DbM.bind_get, DbM.bind_ok hs1, DbM.bind_get]
      exact DbM.lift_ok (assertThat_pos hleaf) s1
    rw [Db.clear, DbM.bind_ok hdelete]
    rfl
  · rintro k v ⟨a, ha⟩
    rw [show _ = none from hheap a] at ha
    cases ha
  · refine ⟨Tree.Inv.of_empty rfl hheap, Accounted.of_empty hheap ?_ rfl, ⟨?_, ?_⟩, ?_⟩
    · intro type
      simp only [Stats.cleared, hleaf, ite_self]
    · intro type htype
      have := h.balanced.balance type htype
      have hcount : s1.stats.cleared.countFrom type = 0 := by
        cases type <;> simp [Stats.countFrom, Stats.cleared]
      have hshrinking : s1.stats.cleared.shrinkingInodeCounts = s0.stats.shrinkingInodeCounts :=
        hfreed.shrinking_eq
      have hgrowing : s1.stats.cleared.growingInodeCounts = s0.stats.growingInodeCounts :=
        hfreed.growing_eq
      rw [hcount, hshrinking, hgrowing]
      omega
    · have hsplits := h.balanced.splits
      rw [← hfreed.splits_eq, ← hfreed.growing_eq] at hsplits
      exact hsplits
    · show ∀ type, s1.memory type = true
      rw [hfreed.memory_eq]
      exact h.supplied

/-- A new `db`. -/
theorem Inv.empty (path : NodePtr → List UInt8) : (Db.empty sizes).Inv K path fun _ => 0 :=
  ⟨Tree.Inv.of_empty rfl fun _ => rfl, Accounted.of_empty (fun _ => rfl) (fun _ => rfl) rfl,
    Balanced.init, fun _ => rfl⟩

end Db

end Unodb
