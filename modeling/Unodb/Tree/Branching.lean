import Unodb.Tree.Descent

/-!
# Inner nodes and branching strings

The paths of the inner nodes are the strings after which the stored keys branch.  So whether a search
stays within its key, and whether a removal can join two key prefixes, depends on the stored keys
only.
-/

namespace Unodb

/-- A search for `k` among the keys of a set goes on at the end of `k`, or where zero bytes follow the
    end of `k`: there the stored keys branch. -/
def RunsOff (K : Set (List UInt8)) (k : List UInt8) : Prop :=
  ∃ z, Radix.Branching K (k ++ List.replicate z 0)

namespace Tree

variable {K : Set (List UInt8)} {t : Tree} {path : NodePtr → List UInt8}
  {slot : Radix.Slot NodePtr UInt8} {p : NodePtr} {n : INode NodePtr} {k w : List UInt8}

theorem inode_of_inner {pre : List UInt8} {c : UInt8 → Option NodePtr}
    (h : t.graph.node p = some (.inner pre c)) : ∃ n, t.deref p = some (.inode n) := by
  obtain ⟨body, hbody, hview⟩ := Option.map_eq_some_iff.mp h
  cases body with
  | leaf k v => cases hview
  | inode n => exact ⟨n, hbody⟩

/-- Where a branching string lies: at the inner node below it on the way or at a child of that. -/
theorem Inv.toward_branching (h : t.Inv K path) (hw : Radix.Branching t.Keys w)
    (hread : t.graph.read slot = some p) (hstart : slot.start path <+: w) :
    ∃ n, t.deref p = some (.inode n) ∧
      (path p = w ∨ ∃ b c, n.child b = some c ∧ path p ++ [b] <+: w) := by
  obtain ⟨k, ⟨v, hk⟩, k', ⟨v', hk'⟩, b, b', hbb, hb, hb'⟩ := hw
  have hsk : slot.start path <+: k := (hstart.trans (List.prefix_append _ _)).trans hb
  have hsk' : slot.start path <+: k' := (hstart.trans (List.prefix_append _ _)).trans hb'
  by_cases htype : p.type = .leaf
  · -- Two keys do not go down to one leaf.
    obtain ⟨k₀, v₀, hp, -⟩ := h.leaf_of_tag hread htype
    have heq : ∀ {x y}, t.Binds x y → slot.start path <+: x → x = k₀ := by
      intro x y hx hs
      by_contra hne
      exact h.unbound_of_leaf hread hs hp hne y hx
    rw [heq hk hsk] at hb
    rw [heq hk' hsk'] at hb'
    exact absurd (Radix.snoc_inj_of_isPrefix hb hb') hbb
  · obtain ⟨n, hp, -⟩ := h.inode_of_tag hread htype
    refine ⟨n, hp, ?_⟩
    obtain ⟨c, q, hc, hpc⟩ := h.next_of_binds hread hsk hp hk
    obtain ⟨c', q', hc', hpc'⟩ := h.next_of_binds hread hsk' hp hk'
    have hwk : w <+: k := (List.prefix_append _ _).trans hb
    rcases Nat.lt_trichotomy (path p).length w.length with hlt | heq | hgt
    · exact .inr ⟨c, q, hc, List.prefix_of_prefix_length_le hpc hwk (by
        rw [List.length_append, List.length_singleton]
        omega)⟩
    · exact .inl ((List.prefix_of_prefix_length_le ((List.prefix_append _ _).trans hpc) hwk
        (Nat.le_of_eq heq)).eq_of_length heq)
    · -- The keys would have parted above the node.
      have hlen : ∀ x : UInt8, (w ++ [x]).length ≤ (path p).length := fun x => by
        rw [List.length_append, List.length_singleton]
        omega
      exact absurd (Radix.snoc_inj_of_isPrefix
        (List.prefix_of_prefix_length_le hb ((List.prefix_append _ _).trans hpc) (hlen b))
        (List.prefix_of_prefix_length_le hb' ((List.prefix_append _ _).trans hpc') (hlen b'))) hbb

theorem Inv.exists_inode_below (h : t.Inv K path) (hw : Radix.Branching t.Keys w)
    (hread : t.graph.read slot = some p) (hstart : slot.start path <+: w) :
    ∃ q m, t.deref q = some (.inode m) ∧ path q = w := by
  obtain ⟨d, hd⟩ : ∃ d, w.length - (slot.start path).length = d := ⟨_, rfl⟩
  induction d using Nat.strongRecOn generalizing slot p with
  | ind d ih =>
    obtain ⟨n, hp, hat | ⟨b, c, hc, hpath⟩⟩ := h.toward_branching hw hread hstart
    · exact ⟨p, n, hp, hat⟩
    · have hreadc : t.graph.read (.child p b) = some c := by rw [graph_read_child hp, hc]
      have hlt := (h.graph.start_isPrefix hread).length_le
      have hle := hpath.length_le
      rw [List.length_append, List.length_singleton] at hle
      refine ih _ ?_ hreadc hpath rfl
      rw [Radix.Slot.start_child, List.length_append, List.length_singleton]
      omega

/-- A branching string is the path of an inner node. -/
theorem Inv.exists_inode (h : t.Inv K path) (hw : Radix.Branching t.Keys w) :
    ∃ p n, t.deref p = some (.inode n) ∧ path p = w := by
  obtain ⟨k, ⟨v, hk⟩, -⟩ := id hw
  cases hroot : t.root with
  | none =>
    obtain ⟨x, hx⟩ := binds_iff.mpr hk
    rw [h.graph.node_eq_none hroot] at hx
    cases hx
  | some root =>
    exact h.exists_inode_below hw (show t.graph.read .root = some root from hroot) List.nil_prefix

theorem Inv.branching (h : t.Inv K path) (hp : t.deref p = some (.inode n)) :
    Radix.Branching t.Keys (path p) := by
  obtain ⟨k, hk, k', hk', b, b', hbb, hb, hb'⟩ := h.branching_path hp
  exact ⟨k, hk, k', hk', b, b', hbb, hb, hb'⟩

theorem Inv.stays_iff (h : t.Inv K path) : t.Stays path k ↔ ¬ RunsOff t.Keys k := by
  constructor
  · rintro hstays ⟨z, hz⟩
    obtain ⟨p, n, hp, hpath⟩ := h.exists_inode hz
    exact hstays p n hp z hpath
  · intro hoff p n hp z hpath
    exact hoff ⟨z, hpath ▸ h.branching hp⟩

/-! ## 1. Key prefixes and the distance of branchings -/

section Spaced

variable (h : t.Inv K path)
include h

/-- A node whose children hold no two keys other than `k` has the leaf of `k` for a child and one
    other child. -/
theorem Inv.only_leaf (hp : t.deref p = some (.inode n)) {b' : UInt8} {x' : List UInt8}
    (hx' : x' ∈ t.Keys \ {k}) (hpx' : path p ++ [b'] <+: x')
    (hnot : ¬ Radix.Branching (t.Keys \ {k}) (path p)) :
    ∃ b c v, n.child b = some c ∧ t.deref c = some (.leaf k v) ∧ b' ≠ b ∧
      ∀ x, (n.child x).isSome → x = b ∨ x = b' := by
  -- Whatever lies below another child is `k`.
  have honly : ∀ {d x}, d ≠ b' → x ∈ t.Keys → path p ++ [d] <+: x → x = k := by
    intro d x hd hx hdx
    by_contra hne
    exact hnot ⟨x, ⟨hx, hne⟩, x', hx', d, b', hd, hdx, hpx'⟩
  obtain ⟨b, hb, hbb⟩ : ∃ b, (n.child b).isSome ∧ b ≠ b' := by
    obtain ⟨d, d', hdd, hd, hd'⟩ := h.graph.branching (graph_node_inode hp)
    by_cases heq : d = b'
    · exact ⟨d', hd', fun heq' => hdd (heq.trans heq'.symm)⟩
    · exact ⟨d, hd, heq⟩
  obtain ⟨c, hc⟩ := Option.isSome_iff_exists.mp hb
  have hreadc : t.graph.read (.child p b) = some c := by rw [graph_read_child hp, hc]
  have hleafk : ∃ v, t.deref c = some (.leaf k v) := by
    by_cases htype : c.type = .leaf
    · obtain ⟨k₀, v₀, hc₀, hstart, -⟩ := h.leaf_of_tag hreadc htype
      have hk₀ : k₀ ∈ t.Keys := ⟨v₀, c.addr, (deref_eq_some_iff.mp hc₀).1⟩
      rw [honly hbb hk₀ hstart] at hc₀
      exact ⟨v₀, hc₀⟩
    · obtain ⟨m, hm, -⟩ := h.inode_of_tag hreadc htype
      obtain ⟨x, hx, y, hy, d, d', hdd, hd, hd'⟩ := h.branching hm
      have hpc : path p ++ [b] <+: path c := h.graph.start_isPrefix hreadc
      have hxk := honly hbb hx ((hpc.trans (List.prefix_append _ _)).trans hd)
      have hyk := honly hbb hy ((hpc.trans (List.prefix_append _ _)).trans hd')
      rw [hxk] at hd
      rw [hyk] at hd'
      exact absurd (Radix.snoc_inj_of_isPrefix hd hd') hdd
  obtain ⟨v, hv⟩ := hleafk
  refine ⟨b, c, v, hc, hv, Ne.symm hbb, fun x hx => ?_⟩
  by_cases hxb' : x = b'
  · exact .inr hxb'
  · left
    obtain ⟨e, he⟩ := Option.isSome_iff_exists.mp hx
    have hreade : t.graph.read (.child p x) = some e := by rw [graph_read_child hp, he]
    obtain ⟨y, hy, hstart, -⟩ := h.leaf_below hreade
    obtain ⟨m, hm, hstartk⟩ := h.graph.live hreadc
    rw [graph_node_leaf_iff.mpr hv, Option.some_inj] at hm
    subst hm
    rw [honly hxb' hy hstart] at hstart
    exact Radix.snoc_inj_of_isPrefix hstart hstartk.2

/-- The keys without `k` branch often enough if removing `k` does not join prefixes that do not
    fit. -/
theorem Inv.spaced_of_joinsFit (hjoin : t.JoinsFit k) : Radix.Spaced 7 (t.Keys \ {k}) := by
  intro w hw hlen
  have hmono : Radix.Branching t.Keys w := by
    obtain ⟨x, hx, x', hx', b, b', hbb, hb, hb'⟩ := hw
    exact ⟨x, hx.1, x', hx'.1, b, b', hbb, hb, hb'⟩
  obtain ⟨q, m, hq, rfl⟩ := h.exists_inode hmono
  obtain ⟨x, hx, -, -, bx, -, -, hxq, -⟩ := hw
  have hqx : path q <+: x := (List.prefix_append _ _).trans hxq
  have hm7 := m.keyPrefix.length_le_capacity
  obtain ⟨slot, hread⟩ := h.graph.pointed (graph_node_inode hq)
  have hpathq := h.path_eq hread hq
  cases slot with
  | root =>
    rw [hpathq, Radix.Slot.start, List.nil_append, KeyPrefix.bytes_length] at hlen
    omega
  | child p b' =>
    obtain ⟨pre, c, hnode, -⟩ := Radix.read_child_iff.mp hread
    obtain ⟨n, hp⟩ := inode_of_inner hnode
    have hb' : n.child b' = some q := by rw [← graph_read_child hp, hread]
    rw [Radix.Slot.start_child] at hpathq
    have hpq : path p ++ [b'] <+: path q := ⟨_, hpathq.symm⟩
    have hlenq : (path q).length = (path p).length + 1 + m.keyPrefix.length := by
      rw [hpathq]
      simp only [List.length_append, List.length_singleton, KeyPrefix.bytes_length]
    by_cases hnot : Radix.Branching (t.Keys \ {k}) (path p)
    · exact ⟨path p, hnot, (List.prefix_append _ _).trans hpq, by omega, by omega⟩
    · -- The node above the branching string disappears with `k`, and its prefix is joined.
      obtain ⟨b, leaf, v, hb, hleaf, hbb, honly⟩ := h.only_leaf hp hx (hpq.trans hqx) hnot
      have hfit := hjoin p n b leaf v b' q m hp hb hleaf hb' hbb honly hq
      unfold keyPrefixCapacity at hfit
      obtain ⟨up, hup⟩ := h.graph.pointed (graph_node_inode hp)
      have hpathp := h.path_eq hup hp
      cases up with
      | root =>
        rw [hlenq, hpathp, Radix.Slot.start, List.nil_append, KeyPrefix.bytes_length] at hlen
        omega
      | child r d =>
        obtain ⟨pre', c', hnode', -⟩ := Radix.read_child_iff.mp hup
        obtain ⟨nr, hr⟩ := inode_of_inner hnode'
        have hd : nr.child d = some p := by rw [← graph_read_child hr, hup]
        rw [Radix.Slot.start_child] at hpathp
        have hrp : path r ++ [d] <+: path p := ⟨_, hpathp.symm⟩
        have hpp : path p <+: path q := (List.prefix_append _ _).trans hpq
        have hlenp : (path p).length = (path r).length + 1 + n.keyPrefix.length := by
          rw [hpathp]
          simp only [List.length_append, List.length_singleton, KeyPrefix.bytes_length]
        have hrx : path r ++ [d] <+: x := hrp.trans (hpp.trans hqx)
        refine ⟨path r, ?_, ((List.prefix_append _ _).trans hrp).trans hpp, by omega, by omega⟩
        -- `k` is below one child of the node above, so another child has another key.
        by_contra hnotr
        obtain ⟨b₁, leaf₁, v₁, hb₁, hleaf₁, hbb₁, -⟩ := h.only_leaf hr hx hrx hnotr
        have hread₁ : t.graph.read (.child r b₁) = some leaf₁ := by
          rw [graph_read_child hr, hb₁]
        have hread₂ : t.graph.read (.child p b) = some leaf := by rw [graph_read_child hp, hb]
        have hsame : leaf₁ = leaf := h.graph.leaf_unique (graph_node_leaf_iff.mpr hleaf₁)
          (graph_node_leaf_iff.mpr hleaf)
        rw [hsame] at hread₁
        have hslot := h.graph.slot_unique hread₁ hread₂
        have hrp' : r = p := (Radix.Slot.child.inj hslot).1
        have hlt := hrp.length_le
        rw [hrp', List.length_append, List.length_singleton] at hlt
        omega

end Spaced

end Tree

end Unodb
