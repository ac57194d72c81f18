import Unodb.Db.Run
import Unodb.Tree.Branching

/-!
# Lookups and removals with arbitrary search keys

On a `db` with byte-string keys the search key of `get` and `remove` may be any string.  The descent
compares it through a window that zeros pad, so it may go on past the end of the search key.  A
removal may also fail to join two key prefixes.
-/

open Arrays

namespace Unodb

namespace Tree

variable {K : Set (List UInt8)} {t : Tree} {path : NodePtr → List UInt8}
  {slot : Radix.Slot NodePtr UInt8} {sl : Slot} {p : NodePtr} {n : INode NodePtr} {k : List UInt8}
  {depth z : Nat} {rem : KeyView}

/-! ## 1. Past the end of the search key -/

section Off

variable (h : t.Inv K path) (hat : t.At path k sl slot depth rem)
  (hread : t.graph.read slot = some p) (hp : t.deref p = some (.inode n))
  (hpath : path p <+: k ++ List.replicate z 0)
include h hat hread hp hpath

/-- Zero bytes after the search key match zero bytes of a key prefix. -/
theorem At.shared_of_padded :
    n.keyPrefix.getSharedLength (ArtKey.getU64 rem) = n.keyPrefix.length := by
  refine KeyPrefix.getSharedLength_of_getD (LawfulArtKey.rem_getU64 hat.rem_drop) fun i hi => ?_
  rw [← KeyPrefix.bytes_length] at hi
  have hget : (path p)[depth + i]? = n.keyPrefix.bytes[i]? := by
    rw [h.path_eq hread hp, List.getElem?_append_right (by rw [hat.depth_eq]; omega), hat.depth_eq,
      Nat.add_sub_cancel_left]
  have hlt : depth + i < (path p).length := by
    rw [h.path_eq hread hp, List.length_append, hat.depth_eq]
    omega
  have hpad := List.prefix_iff_getElem?.mp hpath _ hlt
  rw [← List.getElem?_eq_getElem hlt, hget] at hpad
  rw [List.getD_eq_getElem?_getD, List.getD_eq_getElem?_getD, List.getElem?_drop, ← hpad,
    List.getElem?_append, List.getElem?_replicate]
  by_cases hk : depth + i < k.length
  · rw [if_pos hk]
  · rw [if_neg hk, List.getElem?_eq_none (by omega)]
    split <;> rfl

omit hpath in
/-- The next byte after the path of a node that lies at or past the end of the search key. -/
theorem At.byteAt_error (hlen : k.length ≤ (path p).length) :
    ArtKey.shiftRight rem n.keyPrefix.length = .error .assertion ∨
      ∃ rem1, ArtKey.shiftRight rem n.keyPrefix.length = .ok rem1 ∧
        ArtKey.byteAt rem1 0 = .error .badAccess := by
  have hrem : rem.key = k.drop depth := hat.rem_drop
  rw [h.path_eq hread hp, List.length_append, hat.depth_eq, KeyPrefix.bytes_length] at hlen
  by_cases hle : n.keyPrefix.length ≤ rem.key.length
  · refine .inr ⟨⟨rem.key.drop n.keyPrefix.length⟩, if_pos hle, ?_⟩
    have hnil : rem.key.drop n.keyPrefix.length = [] := by
      rw [hrem, List.drop_eq_nil_iff, List.length_drop]
      omega
    rw [hnil]
    exact dif_neg (by simp)
  · exact .inl (if_neg hle)

end Off

end Tree

namespace Db

variable {K : Set (List UInt8)} {path : NodePtr → List UInt8} {lost : NodeType → Nat} {s : Db sizes}
  {slot : Radix.Slot NodePtr UInt8} {sl : Slot} {p : NodePtr} {depth : Nat}

/-- The descent for a key that runs off ends at a byte past the end of the key. -/
theorem getLoop_runsOff (h : s.tree.Inv K path) {k rem : KeyView}
    (hoff : RunsOff s.tree.Keys k.key) {fuel : Nat}
    (hat : s.tree.At path k.key sl slot depth rem) (hread : s.tree.graph.read slot = some p)
    (hfuel : k.key.length < fuel + depth) :
    ∃ fault, getLoop s.tree k fuel p rem = .error fault ∧
      (fault = .assertion ∨ fault = .badAccess) := by
  obtain ⟨z, hz⟩ := id hoff
  induction fuel generalizing sl slot depth rem p with
  | zero =>
    have := hat.depth_le
    omega
  | succ fuel ih =>
    obtain ⟨n, hp, hplace⟩ := h.toward_branching hz hread
      (hat.start.trans (List.prefix_append _ _))
    have htype : p.type ≠ .leaf := by
      rw [← (Tree.deref_eq_some_iff.mp hp).2]
      exact n.type_ne_leaf
    have hpad : path p <+: k.key ++ List.replicate z 0 := by
      rcases hplace with heq | ⟨b, c, -, hnext⟩
      · exact heq ▸ List.prefix_rfl
      · exact (List.prefix_append _ _).trans hnext
    have hshared := hat.shared_of_padded h hread hp hpad
    simp only [getLoop, if_neg htype, Tree.readInode_ok hp, bind, Except.bind,
      if_neg (Nat.not_lt.mpr hshared.ge)]
    rcases Nat.lt_or_ge (path p).length k.key.length with hlt | hge
    · rcases hplace with heq | ⟨b, c, hc, hnext⟩
      · rw [heq, List.length_append] at hlt
        omega
      · have hpk : path p <+: k.key :=
          List.prefix_of_prefix_length_le hpad (List.prefix_append _ _) hlt.le
        have hbk : path p ++ [b] <+: k.key :=
          List.prefix_of_prefix_length_le hnext (List.prefix_append _ _)
            (by rw [List.length_append, List.length_singleton]; omega)
        obtain ⟨rem1, b', rem2, hrem1, hb', hrem2, hpath, -, hlen, hdrop⟩ :=
          hat.take h hread hp hpk hlt
        obtain rfl := Radix.snoc_inj_of_isPrefix hbk hpath
        have hwf : n.WF := h.wf (Tree.deref_eq_some_iff.mp hp).1
        obtain ⟨ci, i, hfind, -⟩ := hwf.exists_findChild hc
        have hreadc : s.tree.graph.read (.child p b) = some c := by
          rw [Tree.graph_read_child hp, hc]
        have hload : s.tree.load (.child p.addr i) = some c := by
          rw [h.load_eq (.child hp hfind), hreadc]
        simp only [hrem1, hb', hfind, Tree.readSlot_ok hload, hrem2]
        exact ih (Tree.At.child hp hfind hpath hlen hdrop) hreadc (by omega)
    · rcases hat.byteAt_error h hread hp hge with hshift | ⟨rem1, hshift, hbyte⟩
      · simp only [hshift]
        exact ⟨_, rfl, .inl rfl⟩
      · simp only [hshift, hbyte]
        exact ⟨_, rfl, .inr rfl⟩

theorem getInternal_runsOff (h : s.tree.Inv K path) {k : KeyView}
    (hoff : RunsOff s.tree.Keys k.key) :
    ∃ fault, getInternal s k = .error fault ∧ (fault = .assertion ∨ fault = .badAccess) := by
  obtain ⟨z, hz⟩ := id hoff
  obtain ⟨q, m, hq, -⟩ := h.exists_inode hz
  cases hroot : s.tree.root with
  | none =>
    have hnone := h.graph.node_eq_none hroot q
    rw [Tree.graph_node_inode hq] at hnone
    cases hnone
  | some root =>
    rw [getInternal, hroot]
    exact getLoop_runsOff h hoff (Tree.At.root s.tree path k) hroot (by
      show k.key.length < k.key.length + 1 + 0
      omega)

/-! ## 2. Prefixes that do not fit together -/

section Stuck

variable {κ : Type} [LawfulArtKey κ] {k : κ} {n m : INode NodePtr} {b b' : UInt8} {c q : NodePtr}
  {v : List UInt8}

/-- The removal of a leaf whose only sibling is an inner node with too long a prefix. -/
theorem removeOrChooseSubtree_stuck (h : s.Inv K path lost) (hp : s.tree.deref p = some (.inode n))
    (hb : n.child b = some c) (hc : s.tree.deref c = some (.leaf (ArtKey.getKeyView k) v))
    (hb' : n.child b' = some q) (hbb : b' ≠ b) (honly : ∀ x, (n.child x).isSome → x = b ∨ x = b')
    (hq : s.tree.deref q = some (.inode m))
    (hfit : ¬ m.keyPrefix.length + n.keyPrefix.length < keyPrefixCapacity) :
    removeOrChooseSubtree p b k sl s = .error .assertion s := by
  have hwf : n.WF := h.tree.wf (Tree.deref_eq_some_iff.mp hp).1
  have hptype : n.type = p.type := (Tree.deref_eq_some_iff.mp hp).2
  have hctype : c.type = .leaf := (Tree.deref_eq_some_iff.mp hc).2.symm
  have hqtype : q.type ≠ .leaf := by
    rw [← (Tree.deref_eq_some_iff.mp hq).2]
    exact m.type_ne_leaf
  -- A node with two children is an `inode_4` of minimum size.
  have hdeg : degree n.child ≤ 2 := by
    refine (Finset.card_le_card fun x hx => ?_).trans (Finset.card_le_two (a := b) (b := b'))
    rw [Finset.mem_insert, Finset.mem_singleton]
    exact honly x (Finset.mem_filter.mp hx).2
  have hmin := hwf.minSize_le
  have h4 : n.type = .i4 := by
    cases htype : n.type with
    | leaf => exact absurd htype n.type_ne_leaf
    | i4 => rfl
    | _ =>
      rw [htype] at hmin
      simp only [NodeType.minSize] at hmin
      omega
  have hdeg2 : degree n.child = 2 := by
    rw [h4] at hmin
    exact Nat.le_antisymm hdeg hmin
  have hmin2 : n.isMinSize := hwf.isMinSize_iff.mpr (by rw [hdeg2, h4]; rfl)
  obtain ⟨ci, i, hfind, -⟩ := hwf.exists_findChild hb
  obtain ⟨d, q', hlast, hdb, hd, -⟩ := hwf.lastChild hfind h4 hdeg2
  obtain rfl : d = b' := (honly d (by rw [hd]; rfl)).resolve_left hdb
  rw [hb', Option.some_inj] at hd
  subst hd
  have hleave : leaveLastChild p ci s = .error .assertion s := by
    rw [leaveLastChild, DbM.bind_ok (readInode_ok hp), DbM.bind_lift hlast]
    simp only
    rw [if_pos hqtype, DbM.bind_ok (readInode_ok hq), KeyPrefix.prepend, dif_neg hfit]
    rfl
  rw [removeOrChooseSubtree, DbM.bind_ok (readInode_ok hp)]
  simp only [hfind]
  rw [DbM.bind_ok (readSlot_ok (h.load_child hp hfind hb)), if_neg (not_not.mpr hctype),
    DbM.bind_ok (readKey_ok hc), if_neg (not_not.mpr ((ArtKey.cmp_eq_zero_iff _ _).mpr rfl)),
    if_pos hmin2, if_pos (hptype ▸ h4), DbM.bind_error hleave]

section Leaf

variable (h : s.Inv K path lost) (hstays : s.tree.Stays path (ArtKey.getKeyView k))
  (hp : s.tree.deref p = some (.inode n)) (hb : n.child b = some c)
  (hc : s.tree.deref c = some (.leaf (ArtKey.getKeyView k) v))
include h hstays hp hb hc

/-- The removal of a stored key goes down to the node above its leaf and comes to what the round there
    comes to. -/
theorem removeLoop_of_leaf {P : EStateM.Result Fault (Db sizes) Bool → Prop}
    (hround : ∀ sl slot, s.tree.SlotAt sl slot → s.tree.graph.read slot = some p →
      (∃ fault, removeOrChooseSubtree p b k sl s = .error fault s ∧ P (.error fault s)) ∨
      ∃ s', removeOrChooseSubtree p b k sl s = .ok (some none) s' ∧ P (.ok true s'))
    {p₀ : NodePtr} {rem : κ} {fuel : Nat}
    (hat : s.tree.At path (ArtKey.getKeyView k) sl slot depth rem)
    (hread : s.tree.graph.read slot = some p₀) (htype : p₀.type ≠ .leaf)
    (hfuel : (ArtKey.getKeyView k).length < fuel + depth) :
    P (removeLoop k fuel sl rem s) := by
  induction fuel generalizing sl slot depth rem p₀ with
  | zero =>
    have := hat.depth_le
    omega
  | succ fuel ih =>
    obtain ⟨n₀, hp₀, hwf, -⟩ := h.tree.inode_of_tag hread htype
    have hk : s.tree.Binds (ArtKey.getKeyView k) v := ⟨c.addr, (Tree.deref_eq_some_iff.mp hc).1⟩
    have hload := (h.tree.load_eq hat.slotAt).trans hread
    have hlt : ¬ n₀.keyPrefix.getSharedLength (ArtKey.getU64 rem) < n₀.keyPrefix.length := by
      intro hlt
      exact h.tree.unbound_of_prefix hread hat.start hp₀
        (hat.not_path_isPrefix h.tree hread hp₀ hstays hlt) v hk
    obtain ⟨hshared, rem1, b₁, rem2, hrem1, hb₁, hrem2, hpath, hbyte, hlen, hdrop⟩ :=
      hat.pass h.tree hread hp₀ hstays hlt
    obtain ⟨b₀, c₀, hc₀, hnext⟩ := h.tree.next_of_binds hread hat.start hp₀ hk
    obtain rfl := Radix.snoc_inj_of_isPrefix hpath hnext
    obtain ⟨ci, i, hfind, -⟩ := hwf.exists_findChild hc₀
    have hreadc : s.tree.graph.read (.child p₀ b₁) = some c₀ := by
      rw [Tree.graph_read_child hp₀, hc₀]
    by_cases hctype : c₀.type = .leaf
    · -- The leaf of the key hangs on one node only.
      obtain ⟨k', v', hleaf, -⟩ := h.tree.leaf_of_tag hreadc hctype
      have hkk : ArtKey.getKeyView k = k' := by
        by_contra hne
        exact h.tree.unbound_of_leaf hreadc hnext hleaf hne v hk
      subst hkk
      have hcc : c = c₀ := h.tree.graph.leaf_unique (Tree.graph_node_leaf_iff.mpr hc)
        (Tree.graph_node_leaf_iff.mpr hleaf)
      have hreadc' : s.tree.graph.read (.child p b) = some c₀ := by
        rw [Tree.graph_read_child hp, hb, hcc]
      obtain ⟨rfl, rfl⟩ := Radix.Slot.child.inj (h.tree.graph.slot_unique hreadc' hreadc)
      rcases hround sl slot hat.slotAt hread with ⟨fault, hr, hP⟩ | ⟨s', hr, hP⟩
      · rw [removeLoop_fail hload hp₀ hshared hrem1 hb₁ hr]
        exact hP
      · rw [removeLoop_pass hload hp₀ hshared hrem1 hb₁ hr]
        exact hP
    · have hr : removeOrChooseSubtree p₀ b₁ k sl s = .ok (some (some (.child p₀.addr i))) s := by
        rw [removeOrChooseSubtree, DbM.bind_ok (readInode_ok hp₀)]
        simp only [hfind]
        rw [DbM.bind_ok (readSlot_ok (h.load_child hp₀ hfind hc₀)), if_pos hctype]
        rfl
      rw [removeLoop_pass hload hp₀ hshared hrem1 hb₁ hr]
      simp only
      rw [DbM.bind_lift hrem2]
      exact ih (Tree.At.child hp₀ hfind hpath hlen hdrop) hreadc hctype (by omega)

theorem removeInternal_of_leaf {P : EStateM.Result Fault (Db sizes) Bool → Prop}
    (hround : ∀ sl slot, s.tree.SlotAt sl slot → s.tree.graph.read slot = some p →
      (∃ fault, removeOrChooseSubtree p b k sl s = .error fault s ∧ P (.error fault s)) ∨
      ∃ s', removeOrChooseSubtree p b k sl s = .ok (some none) s' ∧ P (.ok true s')) :
    P (removeInternal k s) := by
  have hnode := Tree.graph_node_inode hp
  obtain ⟨root, hroot⟩ : ∃ root, s.tree.root = some root := by
    cases hroot : s.tree.root with
    | none =>
      rw [h.tree.graph.node_eq_none hroot] at hnode
      cases hnode
    | some root => exact ⟨root, rfl⟩
  have hread : s.tree.graph.read .root = some root := hroot
  have htype : root.type ≠ .leaf := by
    intro htype
    -- Below a leaf at the root there is no inner node.
    obtain ⟨k', v', hleaf, -⟩ := h.tree.leaf_of_tag hread htype
    have hsame : p = root := h.tree.graph.below_leaf (Tree.graph_node_leaf_iff.mpr hleaf) hnode
      (h.tree.graph.below_root hread hnode)
    rw [hsame, hleaf] at hp
    cases hp
  rw [removeInternal, DbM.bind_get]
  simp only [hroot]
  rw [if_neg htype]
  refine removeLoop_of_leaf h hstays hp hb hc hround (Tree.At.root s.tree path k) hread htype ?_
  rw [LawfulArtKey.size_eq]
  omega

end Leaf

/-- A removal that would join prefixes that do not fit fails an assertion. -/
theorem removeInternal_stuck (h : s.Inv K path lost)
    (hstays : s.tree.Stays path (ArtKey.getKeyView k))
    (hjoin : ¬ s.tree.JoinsFit (ArtKey.getKeyView k)) :
    removeInternal k s = .error .assertion s := by
  simp only [Tree.JoinsFit, not_forall] at hjoin
  obtain ⟨p, n, b, c, v, b', q, m, hp, hb, hc, hb', hbb, honly, hq, hfit⟩ := hjoin
  exact removeInternal_of_leaf (P := fun r => r = .error .assertion s) h hstays hp hb hc
    fun sl slot _ _ => .inl ⟨_, removeOrChooseSubtree_stuck h hp hb hc hb' hbb honly hq hfit, rfl⟩

end Stuck

/-! ## 3. The law of lookups -/

/-- A `db` whose tree spells its keys, none of which is a prefix of another. -/
def WellFormed (s : Db sizes) : Prop :=
  ∃ K path lost, Radix.PrefixFree K ∧ s.Inv K path lost

/-- Lookups and removals of a search key answer for the stored keys. -/
structure LookupLaw (s : Db sizes) (q : List UInt8) : Prop where
  get : ∃ r, getInternal s (KeyView.mk q) = .ok r ∧ ∀ v, r = some v ↔ s.tree.Binds q v
  remove_stored : q ∈ s.tree.Keys →
    ∃ s', removeInternal (KeyView.mk q) s = .ok true s' ∧ s.tree.Drops s'.tree q
  remove_absent : q ∉ s.tree.Keys → removeInternal (KeyView.mk q) s = .ok false s

/-- The law holds of a search key unless the search runs past its end or its removal leaves stored
    keys that do not branch often enough. -/
theorem lookupLaw_iff {s : Db sizes} (h : s.WellFormed) (q : List UInt8) :
    LookupLaw s q ↔
      ¬ RunsOff s.tree.Keys q ∧ (q ∈ s.tree.Keys → Radix.Spaced 7 (s.tree.Keys \ {q})) := by
  obtain ⟨K, path, lost, -, hinv⟩ := h
  constructor
  · intro hlaw
    have hoff : ¬ RunsOff s.tree.Keys q := by
      intro hoff
      obtain ⟨fault, herror, -⟩ := getInternal_runsOff (k := KeyView.mk q) hinv.tree hoff
      obtain ⟨r, hok, -⟩ := hlaw.get
      rw [herror] at hok
      cases hok
    refine ⟨hoff, fun hq => hinv.tree.spaced_of_joinsFit ?_⟩
    by_contra hjoin
    obtain ⟨s', hok, -⟩ := hlaw.remove_stored hq
    rw [removeInternal_stuck (k := KeyView.mk q) hinv (hinv.tree.stays_iff.mpr hoff) hjoin] at hok
    cases hok
  · rintro ⟨hoff, hspaced⟩
    have hstays : s.tree.Stays path q := hinv.tree.stays_iff.mpr hoff
    have hjoin : s.tree.JoinsFit q := by
      by_cases hq : q ∈ s.tree.Keys
      · exact hinv.tree.joinsFit (hspaced hq)
      · intro p n b c v b' p' m hp hb hc
        exact absurd ⟨v, c.addr, (Tree.deref_eq_some_iff.mp hc).1⟩ hq
    have hremove := removeInternal_spec (k := KeyView.mk q) hinv hstays hjoin
    generalize hrun : removeInternal (KeyView.mk q) s = result at hremove
    refine ⟨getInternal_spec (k := KeyView.mk q) hinv.tree hstays, ?_, ?_⟩
    · rintro ⟨v, hv⟩
      cases hremove with
      | absent hunbound => exact absurd hv (hunbound v)
      | @removed s' path' v' hb hinv' hdrops => exact ⟨s', hrun, hdrops⟩
    · intro hq
      cases hremove with
      | absent hunbound => exact hrun
      | @removed s' path' v' hb hinv' hdrops => exact absurd ⟨v', hb⟩ hq

/-- Two keys that part after one byte. -/
def forked : Db .db := (run KeyView.mk [.insert [5, 1] [7], .insert [5, 2] [8]] (Db.empty .db)).2

theorem forked_wellFormed : forked.WellFormed := by
  have hkeys : ∀ c ∈ [Call.insert [5, 1] [7], Call.insert [5, 2] [8]],
      c.KeyIn {k : List UInt8 | view KeyView.mk k ∈ ({[5, 1], [5, 2]} : Set (List UInt8))} := by
    simp [Call.KeyIn, view, ArtKey.getKeyView]
  have hfree : Radix.PrefixFree {[5, 1], [5, (2 : UInt8)]} := by simp [Radix.PrefixFree]
  have hinj : Function.Injective (view KeyView.mk) := fun k k' (heq : k = k') => heq
  obtain ⟨-, ⟨path, lost, hinv⟩, -⟩ := run_spec (m := fun _ => none) hinj hfree (Inv.empty fun _ => [])
    represents_empty _ hkeys
    (along_short (by simp [Call.KeyIn, view, ArtKey.getKeyView]) fun k hk => by cases hk)
  exact ⟨_, path, lost, hfree, hinv⟩

/-- The law at the byte that the two keys share. -/
theorem lookupLaw_iff_forked : LookupLaw forked [5] ↔
    ¬ RunsOff forked.tree.Keys [5] ∧
      ([5] ∈ forked.tree.Keys → Radix.Spaced 7 (forked.tree.Keys \ {[5]})) :=
  lookupLaw_iff forked_wellFormed [5]

/-- A lookup of that byte reads past its end. -/
theorem lookupLaw_fails : forked.WellFormed ∧
    getInternal forked (KeyView.mk [5]) = .error .badAccess ∧ ¬ LookupLaw forked [5] := by
  have hget : getInternal forked (KeyView.mk [5]) = .error .badAccess := by decide +kernel
  refine ⟨forked_wellFormed, hget, fun hlaw => ?_⟩
  obtain ⟨r, hok, -⟩ := hlaw.get
  rw [hget] at hok
  cases hok

end Db

end Unodb
