import Unodb.Tree.Basic

/-!
# Descent

The loops of all operations go down from the root in the same way.  `At` is what holds at the head
of such a loop; the lemmas say what the loop finds there and that it holds again one level below.
-/

namespace Unodb

namespace Tree

variable {κ : Type} [LawfulArtKey κ] {K : Set (List UInt8)} {t : Tree}
  {path : NodePtr → List UInt8} {slot : Radix.Slot NodePtr UInt8} {sl : Slot} {p : NodePtr}
  {n : INode NodePtr} {k : List UInt8} {depth : Nat} {rem : κ}

/-- A loop that looks for `k` is at a place in memory: it has matched the string up to there, whose
    length is `depth`, and `rem` is the rest of the key. -/
structure At (t : Tree) (path : NodePtr → List UInt8) (k : List UInt8) (sl : Slot)
    (slot : Radix.Slot NodePtr UInt8) (depth : Nat) (rem : κ) : Prop where
  slotAt : t.SlotAt sl slot
  start : slot.start path <+: k
  depth_eq : (slot.start path).length = depth
  rem_drop : LawfulArtKey.Rem rem (k.drop depth)

theorem At.root (t : Tree) (path : NodePtr → List UInt8) (k : κ) :
    t.At path (ArtKey.getKeyView k) .root .root 0 k :=
  ⟨.root, List.nil_prefix, rfl, LawfulArtKey.rem_self k⟩

theorem At.depth_le (hat : t.At path k sl slot depth rem) : depth ≤ k.length := by
  rw [← hat.depth_eq]
  exact hat.start.length_le

/-- The bytes matched so far and the rest make up the key. -/
theorem At.eq_append (hat : t.At path k sl slot depth rem) : slot.start path ++ k.drop depth = k := by
  obtain ⟨s, hs⟩ := hat.start
  rw [← hs, List.drop_append_of_le_length (Nat.le_of_eq hat.depth_eq.symm), ← hat.depth_eq,
    List.drop_length, List.nil_append]

/-- A string below the place starts with the key's bytes so far. -/
theorem At.isPrefix_append_iff (hat : t.At path k sl slot depth rem) {s : List UInt8} :
    slot.start path ++ s <+: k ↔ s <+: k.drop depth := by
  have happ : slot.start path ++ s <+: slot.start path ++ k.drop depth ↔ s <+: k.drop depth :=
    List.prefix_append_right_inj _
  rw [hat.eq_append] at happ
  exact happ

/-- The descent for `k` does not meet an inner node at the end of `k`, nor where zero bytes follow the
    end of `k`. -/
def Stays (t : Tree) (path : NodePtr → List UInt8) (k : List UInt8) : Prop :=
  ∀ p n, t.deref p = some (.inode n) → ∀ z, path p ≠ k ++ List.replicate z 0

section Inner

variable (h : t.Inv K path) (hfree : Radix.PrefixFree K) (hk : k ∈ K)
  (hat : t.At path k sl slot depth rem) (hread : t.graph.read slot = some p)
  (hp : t.deref p = some (.inode n))
include h

section Key

include hfree hk

/-- A key of the tree does not end at an inner node. -/
theorem Inv.not_isPrefix_path (hp : t.deref p = some (.inode n)) : ¬ k <+: path p := by
  intro hpre
  obtain ⟨b, -, -, hb, -⟩ := h.graph.branching (graph_node_inode hp)
  obtain ⟨c, hc⟩ := Option.isSome_iff_exists.mp hb
  have hread : t.graph.read (.child p b) = some c := by rw [graph_read_child hp, hc]
  obtain ⟨l, k', v', hl, hstart, -⟩ := h.graph.exists_leaf hread
  rw [Radix.Slot.start_child] at hstart
  have hkk : k <+: k' := (hpre.trans (List.prefix_append _ _)).trans hstart
  have heq := hfree k hk k' (h.graph.key_mem hl) hkk
  have hlen := hstart.length_le
  have hlen' := hpre.length_le
  rw [List.length_append, List.length_singleton] at hlen
  rw [heq] at hlen'
  omega

/-- The descent for a key stays within the key. -/
theorem Inv.stays : t.Stays path k :=
  fun _ _ hp z heq => h.not_isPrefix_path hfree hk hp ⟨List.replicate z 0, heq.symm⟩

end Key

include hread hp

theorem Inv.path_eq : path p = slot.start path ++ n.keyPrefix.bytes := by
  obtain ⟨m, hm, hstart⟩ := h.graph.live hread
  rw [graph_node_inode hp, Option.some_inj] at hm
  subst hm
  exact hstart

include hat

/-- What is left of the key does not end within the prefix of an inner node. -/
theorem At.not_isPrefix_bytes (hend : ¬ k <+: path p) : ¬ k.drop depth <+: n.keyPrefix.bytes := by
  intro hpre
  apply hend
  rw [h.path_eq hread hp]
  calc k = slot.start path ++ k.drop depth := hat.eq_append.symm
    _ <+: slot.start path ++ n.keyPrefix.bytes := (List.prefix_append_right_inj _).mpr hpre

/-- The loop takes the path of the node and one more byte from the key. -/
theorem At.take (hpk : path p <+: k) (hlt : (path p).length < k.length) :
    ∃ rem1 b rem2, ArtKey.shiftRight rem n.keyPrefix.length = .ok rem1 ∧
      ArtKey.byteAt rem1 0 = .ok b ∧ ArtKey.shiftRight rem1 1 = .ok rem2 ∧
      path p ++ [b] <+: k ∧ k[depth + n.keyPrefix.length]? = some b ∧
      (path p ++ [b]).length = depth + n.keyPrefix.length + 1 ∧
      LawfulArtKey.Rem rem2 (k.drop (depth + n.keyPrefix.length + 1)) := by
  have hpath := h.path_eq hread hp
  have hpathlen : (path p).length = depth + n.keyPrefix.length := by
    rw [hpath, List.length_append, hat.depth_eq, KeyPrefix.bytes_length]
  rw [hpathlen] at hlt
  obtain ⟨b, hb⟩ : ∃ b, k[depth + n.keyPrefix.length]? = some b :=
    ⟨_, List.getElem?_eq_getElem hlt⟩
  have hlen1 : n.keyPrefix.length ≤ (k.drop depth).length := by
    rw [List.length_drop]
    omega
  obtain ⟨rem1, hrem1, hdrop1⟩ := LawfulArtKey.rem_shiftRight hat.rem_drop hlen1
  rw [List.drop_drop] at hdrop1
  have hb1 : (k.drop (depth + n.keyPrefix.length))[0]? = some b := by
    rw [List.getElem?_drop, Nat.add_zero, hb]
  have hlen2 : 1 ≤ (k.drop (depth + n.keyPrefix.length)).length := by
    rw [List.length_drop]
    omega
  obtain ⟨rem2, hrem2, hdrop2⟩ := LawfulArtKey.rem_shiftRight hdrop1 hlen2
  rw [List.drop_drop] at hdrop2
  refine ⟨rem1, b, rem2, hrem1, LawfulArtKey.rem_byteAt hdrop1 hb1, hrem2, ?_, hb, ?_, hdrop2⟩
  · have htake : path p = k.take (depth + n.keyPrefix.length) := by
      rw [← hpathlen]
      exact List.prefix_iff_eq_take.mp hpk
    have hsnoc : k.take (depth + n.keyPrefix.length) ++ [b] =
        k.take (depth + n.keyPrefix.length + 1) := by
      rw [List.take_add_one, hb, Option.toList_some]
    rw [htake, hsnoc]
    exact List.take_prefix _ _
  · rw [List.length_append, hpathlen, List.length_singleton]

variable (hstays : t.Stays path k)
include hstays

/-- Nor is the prefix the rest of the key with zero bytes after it. -/
theorem At.bytes_ne (z : Nat) : n.keyPrefix.bytes ≠ k.drop depth ++ List.replicate z 0 := by
  intro heq
  apply hstays p n hp z
  rw [h.path_eq hread hp, heq, ← List.append_assoc, hat.eq_append]

/-- The prefix of the node is not fully shared: the key leaves the tree here. -/
theorem At.not_path_isPrefix
    (hlt : n.keyPrefix.getSharedLength (ArtKey.getU64 rem) < n.keyPrefix.length) :
    ¬ path p <+: k := by
  intro hpre
  rw [h.path_eq hread hp, hat.isPrefix_append_iff] at hpre
  have hshared := (KeyPrefix.getSharedLength_eq_length_iff
    (LawfulArtKey.rem_getU64 hat.rem_drop) (hat.bytes_ne h hread hp hstays)).mpr hpre
  omega

/-- The prefix of the node is fully shared: the loop takes it and one more byte from the key. -/
theorem At.pass
    (hge : ¬ n.keyPrefix.getSharedLength (ArtKey.getU64 rem) < n.keyPrefix.length) :
    n.keyPrefix.getSharedLength (ArtKey.getU64 rem) = n.keyPrefix.length ∧
    ∃ rem1 b rem2, ArtKey.shiftRight rem n.keyPrefix.length = .ok rem1 ∧
      ArtKey.byteAt rem1 0 = .ok b ∧ ArtKey.shiftRight rem1 1 = .ok rem2 ∧
      path p ++ [b] <+: k ∧ k[depth + n.keyPrefix.length]? = some b ∧
      (path p ++ [b]).length = depth + n.keyPrefix.length + 1 ∧
      LawfulArtKey.Rem rem2 (k.drop (depth + n.keyPrefix.length + 1)) := by
  have heq : n.keyPrefix.getSharedLength (ArtKey.getU64 rem) = n.keyPrefix.length :=
    Nat.le_antisymm (KeyPrefix.getSharedLength_le _ _) (Nat.le_of_not_lt hge)
  have hpre := (KeyPrefix.getSharedLength_eq_length_iff
    (LawfulArtKey.rem_getU64 hat.rem_drop) (hat.bytes_ne h hread hp hstays)).mp heq
  have hpk : path p <+: k := by
    rw [h.path_eq hread hp]
    exact hat.isPrefix_append_iff.mpr hpre
  refine ⟨heq, hat.take h hread hp hpk (Nat.lt_of_le_of_ne hpk.length_le fun hlen => ?_)⟩
  apply hstays p n hp 0
  rw [List.replicate_zero, List.append_nil]
  exact hpk.eq_of_length hlen

omit h hat hread hstays in
/-- The head of the loop one level below. -/
theorem At.child {rem2 : κ} {b : UInt8} {ci i depth' : Nat} (hfind : n.findChild b = some (ci, i))
    (hstart : path p ++ [b] <+: k) (hlen : (path p ++ [b]).length = depth')
    (hrem : LawfulArtKey.Rem rem2 (k.drop depth')) :
    t.At path k (.child p.addr i) (.child p b) depth' rem2 :=
  ⟨.child hp hfind, hstart, hlen, hrem⟩

end Inner

/-! ## 1. Where the key is not -/

theorem Inv.unbound_of_empty (h : t.Inv K path) (hroot : t.root = none) (v : List UInt8) :
    ¬ t.Binds k v := by
  intro hb
  obtain ⟨l, hl⟩ := binds_iff.mpr hb
  exact nomatch (h.graph.node_eq_none hroot l).symm.trans hl

section Unbound

variable (h : t.Inv K path) (hread : t.graph.read slot = some p) (hstart : slot.start path <+: k)
include h hread hstart

theorem Inv.unbound_of_leaf {k' v' : List UInt8} (hp : t.deref p = some (.leaf k' v'))
    (hne : k ≠ k') (v : List UInt8) : ¬ t.Binds k v := by
  intro hb
  obtain ⟨l, hl⟩ := binds_iff.mpr hb
  have hleaf := graph_node_leaf_iff.mpr hp
  rcases h.graph.toward_leaf hl hread hstart with heq | ⟨y, b, hb, -⟩
  · rw [← heq, hleaf] at hl
    cases hl
    exact hne rfl
  · obtain ⟨pre, c, hnode, -⟩ := Radix.read_child_iff.mp hb
    rw [hleaf] at hnode
    cases hnode

/-- From an inner node the search for a stored key goes on to a child. -/
theorem Inv.next_of_binds {v : List UInt8} (hp : t.deref p = some (.inode n)) (hb : t.Binds k v) :
    ∃ b c, n.child b = some c ∧ path p ++ [b] <+: k := by
  obtain ⟨l, hl⟩ := binds_iff.mpr hb
  have hnode := graph_node_inode hp
  rcases h.graph.toward_leaf hl hread hstart with heq | ⟨y, b, hb, hnext⟩
  · rw [← heq, hnode] at hl
    cases hl
  · rw [graph_read_child hp] at hb
    exact ⟨b, y, hb, hnext⟩

theorem Inv.unbound_of_prefix (hp : t.deref p = some (.inode n)) (hpath : ¬ path p <+: k)
    (v : List UInt8) : ¬ t.Binds k v := by
  intro hb
  obtain ⟨b, c, -, hnext⟩ := h.next_of_binds hread hstart hp hb
  exact hpath ((List.prefix_append _ _).trans hnext)

theorem Inv.unbound_of_gap {b : UInt8} (hp : t.deref p = some (.inode n))
    (hpath : path p ++ [b] <+: k) (hb : n.child b = none) (v : List UInt8) : ¬ t.Binds k v := by
  intro hbind
  obtain ⟨b', c, hc, hnext⟩ := h.next_of_binds hread hstart hp hbind
  rw [← Radix.snoc_inj_of_isPrefix hpath hnext, hb] at hc
  cases hc

end Unbound

/-! ## 2. Prefixes that fit -/

/-- The keys a tree stores. -/
def Keys (t : Tree) : Set (List UInt8) := {k | ∃ v, t.Binds k v}

/-- Below a slot in use there is a stored key. -/
theorem Inv.leaf_below (h : t.Inv K path) (hread : t.graph.read slot = some p) :
    ∃ k, k ∈ t.Keys ∧ slot.start path <+: k ∧ path p <+: k := by
  obtain ⟨l, k, v, hl, hstart, hpath⟩ := h.graph.exists_leaf hread
  exact ⟨k, ⟨v, binds_iff.mp ⟨l, hl⟩⟩, hstart, hpath⟩

theorem Inv.branching_path (h : t.Inv K path) (hp : t.deref p = some (.inode n)) :
    ∃ k ∈ t.Keys, ∃ k' ∈ t.Keys, ∃ b b', b ≠ b' ∧ path p ++ [b] <+: k ∧ path p ++ [b'] <+: k' := by
  obtain ⟨b, b', hbb, hb, hb'⟩ := h.graph.branching (graph_node_inode hp)
  obtain ⟨c, hc⟩ := Option.isSome_iff_exists.mp hb
  obtain ⟨c', hc'⟩ := Option.isSome_iff_exists.mp hb'
  have hread : t.graph.read (.child p b) = some c := by rw [graph_read_child hp, hc]
  have hread' : t.graph.read (.child p b') = some c' := by rw [graph_read_child hp, hc']
  obtain ⟨k, hk, hstart, -⟩ := h.leaf_below hread
  obtain ⟨k', hk', hstart', -⟩ := h.leaf_below hread'
  exact ⟨k, hk, k', hk', b, b', hbb, hstart, hstart'⟩

/-- The rests of the two keys where a leaf with another key is met: neither is a prefix of the other,
    since neither key is. -/
theorem At.rests_of_leaf (h : t.Inv K path) (hfree : Radix.PrefixFree K) (hk : k ∈ K)
    (hat : t.At path k sl slot depth rem) (hread : t.graph.read slot = some p)
    {k' v' : List UInt8} (hp : t.deref p = some (.leaf k' v')) (hne : k ≠ k') :
    depth ≤ k'.length ∧ slot.start path ++ k'.drop depth = k' ∧
      ¬ k'.drop depth <+: k.drop depth ∧ ¬ k.drop depth <+: k'.drop depth := by
  have hleaf := graph_node_leaf_iff.mpr hp
  obtain ⟨m, hm, hstart⟩ := h.graph.live hread
  rw [hleaf, Option.some_inj] at hm
  subst hm
  have hk' : k' ∈ K := h.graph.key_mem hleaf
  have hsplit : slot.start path ++ k'.drop depth = k' := by
    obtain ⟨t, ht⟩ := hstart.2
    rw [← ht, List.drop_append_of_le_length (Nat.le_of_eq hat.depth_eq.symm), ← hat.depth_eq,
      List.drop_length, List.nil_append]
  have hrest : ∀ {u u' : List UInt8}, u ∈ K → u' ∈ K → u ≠ u' →
      slot.start path ++ u.drop depth = u → slot.start path ++ u'.drop depth = u' →
      ¬ u.drop depth <+: u'.drop depth := by
    intro u u' hu hu' huu heq heq' hpre
    refine huu (hfree u hu u' hu' ?_)
    rw [← heq, ← heq']
    exact (List.prefix_append_right_inj _).mpr hpre
  refine ⟨?_, hsplit, hrest hk' hk (Ne.symm hne) hsplit hat.eq_append,
    hrest hk hk' hne hat.eq_append hsplit⟩
  rw [← hat.depth_eq]
  exact hstart.2.length_le

/-- Where the search for a new key ends at a leaf, its key and that of the leaf part within eight
    bytes. -/
def PartsSoon (t : Tree) (path : NodePtr → List UInt8) (k : List UInt8) : Prop :=
  ∀ slot p k' v', t.graph.read slot = some p → slot.start path <+: k →
    t.deref p = some (.leaf k' v') → k ≠ k' →
    (k'.drop (slot.start path).length).take 8 ≠ (k.drop (slot.start path).length).take 8

theorem Inv.partsSoon (h : t.Inv K path) (hfree : Radix.PrefixFree K) (hk : k ∈ K)
    (hspaced : Radix.Spaced 7 (insert k t.Keys)) : t.PartsSoon path k := by
  intro slot p k' v' hread hstart hp hne
  have hleaf := graph_node_leaf_iff.mpr hp
  have hk' : k' ∈ K := h.graph.key_mem hleaf
  obtain ⟨m, hm, hstart'⟩ := h.graph.live hread
  rw [hleaf, Option.some_inj] at hm
  subst hm
  obtain ⟨w, b, b', hbb, hw, hw'⟩ := Radix.exists_fork (mt (hfree k hk k' hk') hne)
    (mt (hfree k' hk' k hk) (Ne.symm hne))
  have hkw : w <+: k := (List.prefix_append _ _).trans hw
  have hkw' : w <+: k' := (List.prefix_append _ _).trans hw'
  have hbranch : Radix.Branching (insert k t.Keys) w :=
    ⟨k, Set.mem_insert _ _, k', Set.mem_insert_of_mem _ ⟨v', binds_iff.mp ⟨p, hleaf⟩⟩, b, b', hbb,
      hw, hw'⟩
  -- The string up to the slot starts both keys, so it ends before they part.
  have hsw : slot.start path <+: w := by
    refine List.prefix_of_prefix_length_le hstart hkw (Nat.le_of_not_lt fun hlt => hbb ?_)
    have hlen : ∀ x : UInt8, (w ++ [x]).length ≤ (slot.start path).length := fun x => by
      rw [List.length_append, List.length_singleton]
      omega
    exact Radix.snoc_inj_of_isPrefix (List.prefix_of_prefix_length_le hw hstart (hlen b))
      (List.prefix_of_prefix_length_le hw' hstart'.2 (hlen b'))
  have hle := hspaced.length_le hbranch hsw (by
    rintro x (rfl | ⟨v, hx⟩) hsx
    · exact hkw
    · by_cases hxk : x = k'
      · exact hxk ▸ hkw'
      · exact absurd hx (h.unbound_of_leaf hread hsx hp hxk v))
  intro heq
  apply hbb
  have hget : ∀ {u x}, w ++ [x] <+: u → u[w.length]? = some x := by
    intro u x hu
    obtain ⟨t, ht⟩ := hu
    rw [← ht]
    simp
  have hlen := hsw.length_le
  generalize (slot.start path).length = depth at hle hlen heq
  have hidx := congrArg (·[w.length - depth]?) heq
  simp only [List.getElem?_take, List.getElem?_drop] at hidx
  rw [if_pos (by omega), if_pos (by omega), show depth + (w.length - depth) = w.length by omega,
    hget hw, hget hw', Option.some_inj] at hidx
  exact hidx.symm

/-- When the leaf of `k` and an inner node are the children of a node, the key prefixes of the two
    nodes and the byte between them fit into one. -/
def JoinsFit (t : Tree) (k : List UInt8) : Prop :=
  ∀ p n b c v b' q m, t.deref p = some (.inode n) → n.child b = some c →
    t.deref c = some (.leaf k v) → n.child b' = some q → b' ≠ b →
    (∀ x, (n.child x).isSome → x = b ∨ x = b') → t.deref q = some (.inode m) →
    m.keyPrefix.length + n.keyPrefix.length < keyPrefixCapacity

theorem Inv.joinsFit (h : t.Inv K path) (hspaced : Radix.Spaced 7 (t.Keys \ {k})) :
    t.JoinsFit k := by
  intro p n b c v b' q m hp hb hc hb' hbb honly hq
  obtain ⟨slot, hread⟩ := h.graph.pointed (graph_node_inode hp)
  have hreadc : t.graph.read (.child p b) = some c := by rw [graph_read_child hp, hb]
  have hreadq : t.graph.read (.child p b') = some q := by rw [graph_read_child hp, hb']
  have hpathp := h.path_eq hread hp
  have hpathq : path q = path p ++ [b'] ++ m.keyPrefix.bytes := h.path_eq hreadq hq
  obtain ⟨_, hm, hkc⟩ := h.graph.live hreadc
  rw [graph_node_leaf_iff.mpr hc, Option.some_inj] at hm
  subst hm
  have hkb : path p ++ [b] <+: k := hkc.2
  have hnot : ∀ {x}, path p ++ [b'] <+: x → x ≠ k := by
    rintro x hx rfl
    exact hbb (Radix.snoc_inj_of_isPrefix hx hkb)
  have hpq : path p ++ [b'] <+: path q := ⟨m.keyPrefix.bytes, hpathq.symm⟩
  have hbranch : Radix.Branching (t.Keys \ {k}) (path q) := by
    obtain ⟨k1, hk1, k2, hk2, d, d', hdd, hd, hd'⟩ := h.branching_path hq
    exact ⟨k1, ⟨hk1, hnot ((hpq.trans (List.prefix_append _ _)).trans hd)⟩, k2,
      ⟨hk2, hnot ((hpq.trans (List.prefix_append _ _)).trans hd')⟩, d, d', hdd, hd, hd'⟩
  have hstart : slot.start path <+: path q := by
    rw [hpathq, hpathp, List.append_assoc, List.append_assoc]
    exact List.prefix_append _ _
  have hle := hspaced.length_le hbranch hstart (by
    rintro x ⟨⟨vx, hx⟩, hxk⟩ hsx
    obtain ⟨y, z, hz, hyx⟩ := h.next_of_binds hread hsx hp hx
    rcases honly y (by rw [hz]; rfl) with rfl | rfl
    · exact absurd hx (h.unbound_of_leaf hreadc hyx hc hxk vx)
    · obtain ⟨y', z', -, hyx'⟩ := h.next_of_binds hreadq hyx hq hx
      exact (List.prefix_append _ _).trans hyx')
  rw [hpathq, hpathp] at hle
  simp only [List.length_append, List.length_singleton, KeyPrefix.bytes_length] at hle
  unfold keyPrefixCapacity
  omega

end Tree

end Unodb
