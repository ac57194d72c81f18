import Unodb.Db.Lookup

/-!
# The collapse of a node with two children

When one of two children is removed and the other one is an inner node, that node takes over the key
prefix.  This follows runs of a `db` with byte-string keys whose leaf splits all find a key byte to
branch on.
-/

open Arrays

namespace Unodb

namespace Tree

variable {K : Set (List UInt8)} {t : Tree} {path : NodePtr → List UInt8}
  {slot : Radix.Slot NodePtr UInt8} {p : NodePtr} {k : List UInt8}

/-! ## 1. Leaf splits -/

/-- The loop of `insert_internal` down to a leaf: the key of the leaf and the depth of its slot. -/
def leafOnPath (t : Tree) (k : List UInt8) : Nat → NodePtr → Nat → Option (List UInt8 × Nat)
  | 0, _, _ => none
  | fuel + 1, p, depth =>
    match t.deref p with
    | none => none
    | some (.leaf existingKey _) => some (existingKey, depth)
    | some (.inode n) =>
      if n.keyPrefix.bytes <+: k.drop depth then
        match k[depth + n.keyPrefix.length]? with
        | none => none
        | some b =>
          match n.child b with
          | none => none
          | some c => leafOnPath t k fuel c (depth + n.keyPrefix.length + 1)
      else none

/-- An insertion of `k` that would split a leaf meets a key that differs from `k` within the eight
    bytes after the depth of the split. -/
def splitsApart (t : Tree) (k : List UInt8) : Bool :=
  match t.root with
  | none => true
  | some root =>
    match t.leafOnPath k (k.length + 1) root 0 with
    | none => true
    | some (existingKey, depth) =>
      k = existingKey || decide ((existingKey.drop depth).take 8 ≠ (k.drop depth).take 8)

/-- The loop comes by every slot on the path of `k`. -/
theorem Inv.leafOnPath_slot (h : t.Inv K path) (hread : t.graph.read slot = some p)
    (hstart : slot.start path <+: k) :
    ∃ j root, j ≤ (slot.start path).length ∧ t.root = some root ∧
      ∀ fuel, t.leafOnPath k (fuel + j) root 0 =
        t.leafOnPath k fuel p (slot.start path).length := by
  obtain ⟨len, hlen⟩ : ∃ len, (path p).length = len := ⟨_, rfl⟩
  induction len using Nat.strongRecOn generalizing slot p with
  | ind len ih =>
    cases slot with
    | root => exact ⟨0, p, Nat.zero_le _, hread, fun _ => rfl⟩
    | child a b =>
      obtain ⟨pre, c, hnode, -⟩ := Radix.read_child_iff.mp hread
      obtain ⟨n, ha⟩ := inode_of_inner hnode
      obtain ⟨up, hup⟩ := h.graph.pointed hnode
      have hpath := h.path_eq hup ha
      have hb : n.child b = some p := by rw [← graph_read_child ha, hread]
      have hlt := h.graph.path_lt_of_child hread
      rw [Radix.Slot.start_child] at hstart
      have hak : path a <+: k := (List.prefix_append _ _).trans hstart
      have hupk : up.start path <+: k := (h.graph.start_isPrefix hup).trans hak
      obtain ⟨j, root, hj, hroot, hloop⟩ := ih _ (hlen ▸ hlt) hup hupk rfl
      have hlena : (path a).length = (up.start path).length + n.keyPrefix.length := by
        rw [hpath, List.length_append, KeyPrefix.bytes_length]
      refine ⟨j + 1, root, ?_, hroot, fun fuel => ?_⟩
      · rw [Radix.Slot.start_child, List.length_append, List.length_singleton]
        omega
      · have hpre : n.keyPrefix.bytes <+: k.drop (up.start path).length := by
          obtain ⟨s, hs⟩ := hak
          rw [← hs, hpath, List.append_assoc, List.drop_left]
          exact List.prefix_append _ _
        have hbyte : k[(up.start path).length + n.keyPrefix.length]? = some b := by
          obtain ⟨s, hs⟩ := hstart
          rw [← hs, ← hlena]
          simp
        have hround := hloop (fuel + 1)
        rw [show fuel + 1 + j = fuel + (j + 1) by omega] at hround
        rw [hround, leafOnPath, ha]
        simp only [if_pos hpre, hbyte, hb]
        rw [Radix.Slot.start_child, List.length_append, List.length_singleton, hlena]

theorem Inv.partsSoon_of_splitsApart (h : t.Inv K path) (hsplit : t.splitsApart k) :
    t.PartsSoon path k := by
  intro slot p k' v' hread hstart hp hne
  obtain ⟨j, root, hj, hroot, hloop⟩ := h.leafOnPath_slot hread hstart
  have hlen := hstart.length_le
  have hleaf : t.leafOnPath k (k.length + 1) root 0 = some (k', (slot.start path).length) := by
    have hround := hloop (k.length - j + 1)
    rw [show k.length - j + 1 + j = k.length + 1 by omega] at hround
    rw [hround, leafOnPath, hp]
  rw [splitsApart, hroot] at hsplit
  simp only [hleaf, Bool.or_eq_true, decide_eq_true_eq] at hsplit
  exact hsplit.resolve_left hne

end Tree

namespace Db

variable {K : Set (List UInt8)} {path : NodePtr → List UInt8} {lost : NodeType → Nat} {s : Db sizes}

/-! ## 2. Runs -/

/-- A leaf split of a call, if there is one, meets two keys that differ soon enough. -/
def splitsIn (s : Db sizes) : Call (List UInt8) → Bool
  | .insert k v => (leafRefusal (KeyView.mk k) v).isSome || s.tree.splitsApart k
  | .remove _ | .get _ | .empty | .clear => true

/-- All leaf splits of a run do. -/
def splitsAlong : List (Call (List UInt8)) → Db sizes → Bool
  | [], _ => true
  | c :: cs, s => s.splitsIn c && splitsAlong cs (step KeyView.mk c s).2

/-- A call keeps the invariant, also a removal that fails. -/
theorem Inv.step_keyView (h : s.Inv K path lost) (hfree : Radix.PrefixFree K)
    {c : Call (List UInt8)} (hc : c.KeyIn K) (hsplit : s.splitsIn c) :
    ∃ path' lost', (step KeyView.mk c s).2.Inv K path' lost' := by
  cases c with
  | insert k v =>
    have hsoon : leafRefusal (KeyView.mk k) v = none → s.tree.PartsSoon path k := by
      intro hfits
      refine h.tree.partsSoon_of_splitsApart ?_
      rw [splitsIn, hfits] at hsplit
      exact hsplit
    have hresult := insertInternal_spec (k := KeyView.mk k) (v := v) h hfree hc hsoon
    simp only [step, call]
    generalize hrun : insertInternal (KeyView.mk k) v s = result at hresult
    cases hresult with
    | «exists» _ =>
      rw [DbM.bind_ok hrun]
      exact ⟨path, lost, h⟩
    | refused _ _ =>
      rw [DbM.bind_error hrun]
      exact ⟨path, lost, h⟩
    | @added s' path' _ _ hinv _ =>
      rw [DbM.bind_ok hrun]
      exact ⟨path', lost, hinv⟩
  | remove k =>
    have hstays : s.tree.Stays path k := h.tree.stays hfree hc
    simp only [step, call]
    by_cases hjoin : s.tree.JoinsFit k
    · have hresult := removeInternal_spec (k := KeyView.mk k) h hstays hjoin
      generalize hrun : removeInternal (KeyView.mk k) s = result at hresult
      cases hresult with
      | absent _ =>
        rw [DbM.bind_ok hrun]
        exact ⟨path, lost, h⟩
      | @removed s' path' _ _ hinv _ =>
        rw [DbM.bind_ok hrun]
        exact ⟨path', lost, hinv⟩
    · rw [DbM.bind_error (removeInternal_stuck (k := KeyView.mk k) h hstays hjoin)]
      exact ⟨path, lost, h⟩
  | get k =>
    obtain ⟨r, hr, -⟩ := getInternal_spec (k := KeyView.mk k) h.tree (h.tree.stays hfree hc)
    simp only [step, call]
    rw [DbM.bind_get, DbM.bind_lift hr]
    exact ⟨path, lost, h⟩
  | empty => exact ⟨path, lost, h⟩
  | clear =>
    obtain ⟨s', hclear, -, hinv⟩ := h.clear_spec
    simp only [step, call]
    rw [DbM.bind_ok hclear]
    exact ⟨path, _, hinv⟩

theorem run_inv_keyView (hfree : Radix.PrefixFree K) {calls : List (Call (List UInt8))}
    (hkeys : ∀ c ∈ calls, c.KeyIn K) (hsplit : splitsAlong calls s) (h : s.Inv K path lost) :
    ∃ path' lost', (run KeyView.mk calls s).2.Inv K path' lost' := by
  induction calls generalizing s path lost with
  | nil => exact ⟨path, lost, h⟩
  | cons c cs ih =>
    rw [splitsAlong, Bool.and_eq_true] at hsplit
    obtain ⟨path', lost', h'⟩ := h.step_keyView hfree (hkeys c List.mem_cons_self) hsplit.1
    rw [run_cons]
    exact ih (fun c' hc' => hkeys c' (List.mem_cons_of_mem c hc')) hsplit.2 h'

/-! ## 3. Collapses -/

/-- The removal of `k` takes away the leaf child of an `inode_4` of minimum size whose other child `q`,
    on the key byte `b'`, is an inner node; `pre` and `pre'` are the key prefixes of the two. -/
def Collapses (t : Tree) (k pre : List UInt8) (b' : UInt8) (q : NodePtr) (pre' : List UInt8) :
    Prop :=
  ∃ p n b c v m, t.deref p = some (.inode n) ∧ n.type = .i4 ∧ n.isMinSize ∧
    n.keyPrefix.bytes = pre ∧ n.child b = some c ∧ t.deref c = some (.leaf k v) ∧
    n.child b' = some q ∧ b' ≠ b ∧ t.deref q = some (.inode m) ∧ m.keyPrefix.bytes = pre'

/-- The same, checked at the node `p` and its leaf child `c` on the byte `b`. -/
def collapsesAt (t : Tree) (p : NodePtr) (b : UInt8) (c : NodePtr) (k pre : List UInt8) (b' : UInt8)
    (q : NodePtr) (pre' : List UInt8) : Bool :=
  match t.deref p, t.deref c, t.deref q with
  | some (.inode n), some (.leaf key _), some (.inode m) =>
    decide (n.type = .i4 ∧ n.isMinSize ∧ n.keyPrefix.bytes = pre ∧ n.child b = some c ∧ key = k ∧
      n.child b' = some q ∧ b' ≠ b ∧ m.keyPrefix.bytes = pre')
  | _, _, _ => false

theorem collapses_of_collapsesAt {t : Tree} {p c q : NodePtr} {b b' : UInt8}
    {k pre pre' : List UInt8} (h : collapsesAt t p b c k pre b' q pre') :
    Collapses t k pre b' q pre' := by
  rw [collapsesAt] at h
  split at h
  case h_1 n key v m hp hc hq =>
    obtain ⟨h4, hmin, hpre, hb, rfl, hb', hbb, hpre'⟩ := of_decide_eq_true h
    exact ⟨p, n, b, c, v, m, hp, h4, hmin, hpre, hb, hc, hb', hbb, hq, hpre'⟩
  case h_2 => cases h

/-- The removal leaves the other child with both prefixes and the byte between them, and all other
    keys where lookups find them. -/
def JoinLaw (s : Db sizes) (k pre : List UInt8) (b' : UInt8) (q : NodePtr) (pre' : List UInt8) : Prop :=
  ∃ s' m', removeInternal (KeyView.mk k) s = .ok true s' ∧ s'.tree.deref q = some (.inode m') ∧
    m'.keyPrefix.bytes = pre ++ [b'] ++ pre' ∧ m'.keyPrefix.length ≤ keyPrefixCapacity ∧
    ∀ k' v', k' ≠ k → s.tree.Binds k' v' → getInternal s' (KeyView.mk k') = .ok (some v')

theorem Inv.joinLaw (h : s.Inv K path lost) (hfree : Radix.PrefixFree K)
    {k pre pre' : List UInt8} {b' : UInt8} {q : NodePtr} (hcol : Collapses s.tree k pre b' q pre')
    (hjoin : s.tree.JoinsFit k) : JoinLaw s k pre b' q pre' := by
  obtain ⟨p, n, b, c, v, m, hp, h4, hmin, rfl, hb, hc, hb', hbb, hq, rfl⟩ := hcol
  have hwf : n.WF := h.tree.wf (Tree.deref_eq_some_iff.mp hp).1
  have hk : k ∈ K := h.tree.graph.key_mem (Tree.graph_node_leaf_iff.mpr hc)
  obtain ⟨ci, i, hfind, -⟩ := hwf.exists_findChild hb
  obtain ⟨d, q', hlast, hdb, hd, honly⟩ := hwf.lastChild hfind h4
    (by rw [hwf.isMinSize_iff.mp hmin, h4]; rfl)
  obtain rfl : b' = d := (honly b' (by rw [hb']; rfl)).resolve_left hbb
  rw [hb', Option.some_inj] at hd
  subst hd
  have hfit := hjoin p n b c v b' q m hp hb hc hb' hbb honly hq
  refine removeInternal_of_leaf (k := KeyView.mk k) (P := fun r => ∃ s' m', r = .ok true s' ∧
      s'.tree.deref q = some (.inode m') ∧
      m'.keyPrefix.bytes = n.keyPrefix.bytes ++ [b'] ++ m.keyPrefix.bytes ∧
      m'.keyPrefix.length ≤ keyPrefixCapacity ∧
      ∀ k' v', k' ≠ k → s.tree.Binds k' v' → getInternal s' (KeyView.mk k') = .ok (some v'))
    h (h.tree.stays hfree hk) hp hb hc fun sl slot hslot hread => .inr ?_
  obtain ⟨kp, -, hkp, hr, hinv, hdrops⟩ := removeOrChooseSubtree_join (k := KeyView.mk k) h hslot hread
    hp hfind hb hc rfl hmin h4 hlast hbb hb' honly hq hfit
  refine ⟨_, hr, _, { m with keyPrefix := kp }, rfl, ?_, ?_, kp.length_le, ?_⟩
  · have htype : q.type = INode.type { m with keyPrefix := kp } :=
      (Tree.deref_eq_some_iff.mp hq).2.symm
    exact Tree.deref_eq_some_iff.mpr ⟨by
      rw [Db.collapsed, Tree.collapseInode, Tree.set_heap, if_pos rfl], htype.symm⟩
  · rw [hkp, List.append_assoc]
    rfl
  · intro k' v' hne hbind
    have hbind' := (hdrops k' v').mpr ⟨hne, hbind⟩
    have hk' : k' ∈ K := h.tree.graph.key_mem (Tree.binds_iff.mpr hbind).choose_spec
    obtain ⟨r, hget, hr'⟩ := getInternal_spec (k := KeyView.mk k') hinv.tree
      (hinv.tree.stays hfree hk')
    rw [hget, (hr' v').mpr hbind']

/-- After a run whose leaf splits find a key byte to branch on, a collapse keeps its promise exactly
    when the remaining keys branch often enough. -/
theorem run_collapse_iff (hfree : Radix.PrefixFree K) {calls : List (Call (List UInt8))}
    (hkeys : ∀ c ∈ calls, c.KeyIn K) (hsplit : splitsAlong calls (Db.empty sizes))
    {k pre pre' : List UInt8} {b' : UInt8} {q : NodePtr}
    (hcol : Collapses (run KeyView.mk calls (Db.empty sizes)).2.tree k pre b' q pre') :
    JoinLaw (run KeyView.mk calls (Db.empty sizes)).2 k pre b' q pre' ↔
      Radix.Spaced 7 ((run KeyView.mk calls (Db.empty sizes)).2.tree.Keys \ {k}) := by
  obtain ⟨path, lost, hinv⟩ := run_inv_keyView hfree hkeys hsplit (Inv.empty fun _ => [])
  generalize (run KeyView.mk calls (Db.empty sizes)).2 = s at hcol hinv ⊢
  constructor
  · rintro ⟨s', m', hok, -⟩
    obtain ⟨p, n, b, c, v, m, -, -, -, -, -, hc, -⟩ := hcol
    have hk : k ∈ K := hinv.tree.graph.key_mem (Tree.graph_node_leaf_iff.mpr hc)
    refine hinv.tree.spaced_of_joinsFit ?_
    by_contra hjoin
    rw [removeInternal_stuck (k := KeyView.mk k) hinv (hinv.tree.stays hfree hk) hjoin] at hok
    cases hok
  · intro hspaced
    exact hinv.joinLaw hfree hcol (hinv.tree.joinsFit hspaced)

/-- A node with the leaf of `2` and, on the byte `1`, a node with two leaves. -/
theorem run_collapse_iff_short :
    JoinLaw (run KeyView.mk [.insert [1, 1] [], .insert [1, 2] [], .insert [2] []] (Db.empty .db)).2
        [2] [] 1 ⟨2, .i4⟩ [] ↔
      Radix.Spaced 7 ((run KeyView.mk [.insert [1, 1] [], .insert [1, 2] [], .insert [2] []]
        (Db.empty .db)).2.tree.Keys \ {[2]}) := by
  refine run_collapse_iff (K := {[1, 1], [1, 2], [2]}) ?_ ?_ (by decide +kernel) ?_
  · simp [Radix.PrefixFree]
  · simp [Call.KeyIn]
  · have hat : collapsesAt (run KeyView.mk [.insert [1, 1] [], .insert [1, 2] [], .insert [2] []]
        (Db.empty .db)).2.tree ⟨4, .i4⟩ 2 ⟨3, .leaf⟩ [2] [] 1 ⟨2, .i4⟩ [] := by decide +kernel
    exact collapses_of_collapsesAt hat

/-- Two key prefixes of five bytes do not fit into one. -/
theorem run_collapse_fails :
    Radix.PrefixFree {[0, 0, 0, 0, 0, 1, 0, 0, 0, 0, 0, 1], [0, 0, 0, 0, 0, 1, 0, 0, 0, 0, 0, 2],
      [0, 0, 0, 0, 0, (2 : UInt8)]} ∧
    splitsAlong [.insert [0, 0, 0, 0, 0, 1, 0, 0, 0, 0, 0, 1] [], .insert [0, 0, 0, 0, 0, 2] [],
      .insert [0, 0, 0, 0, 0, 1, 0, 0, 0, 0, 0, 2] []] (Db.empty .db) ∧
    Collapses (run KeyView.mk [.insert [0, 0, 0, 0, 0, 1, 0, 0, 0, 0, 0, 1] [],
      .insert [0, 0, 0, 0, 0, 2] [], .insert [0, 0, 0, 0, 0, 1, 0, 0, 0, 0, 0, 2] []]
      (Db.empty .db)).2.tree [0, 0, 0, 0, 0, 2] [0, 0, 0, 0, 0] 1 ⟨4, .i4⟩ [0, 0, 0, 0, 0] ∧
    ¬ JoinLaw (run KeyView.mk [.insert [0, 0, 0, 0, 0, 1, 0, 0, 0, 0, 0, 1] [],
      .insert [0, 0, 0, 0, 0, 2] [], .insert [0, 0, 0, 0, 0, 1, 0, 0, 0, 0, 0, 2] []]
      (Db.empty .db)).2 [0, 0, 0, 0, 0, 2] [0, 0, 0, 0, 0] 1 ⟨4, .i4⟩ [0, 0, 0, 0, 0] := by
  refine ⟨by simp [Radix.PrefixFree], by decide +kernel, ?_, ?_⟩
  · have hat : collapsesAt (run KeyView.mk [.insert [0, 0, 0, 0, 0, 1, 0, 0, 0, 0, 0, 1] [],
        .insert [0, 0, 0, 0, 0, 2] [], .insert [0, 0, 0, 0, 0, 1, 0, 0, 0, 0, 0, 2] []]
        (Db.empty .db)).2.tree ⟨2, .i4⟩ 2 ⟨1, .leaf⟩ [0, 0, 0, 0, 0, 2] [0, 0, 0, 0, 0] 1 ⟨4, .i4⟩
        [0, 0, 0, 0, 0] := by decide +kernel
    exact collapses_of_collapsesAt hat
  · rintro ⟨s', m', hok, -⟩
    have herror : (step KeyView.mk (.remove [0, 0, 0, 0, 0, 2])
        (run KeyView.mk [.insert [0, 0, 0, 0, 0, 1, 0, 0, 0, 0, 0, 1] [],
          .insert [0, 0, 0, 0, 0, 2] [], .insert [0, 0, 0, 0, 0, 1, 0, 0, 0, 0, 0, 2] []]
          (Db.empty .db)).2).1 = .error .assertion := by decide +kernel
    simp only [step, call] at herror
    rw [DbM.bind_ok hok] at herror
    cases herror

end Db

end Unodb
