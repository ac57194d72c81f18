import Unodb.Util.Runs
import Unodb.Db.Lookup
import Unodb.Db.Ordered
import Unodb.Db.Seek

/-!
# Calls of an iterator and its key buffer

The calls of an iterator one after the other, and when the key buffer still holds what the stack
spells after them.
-/

namespace Unodb

/-- A call of an iterator. -/
inductive IterCall (κ : Type) where
  | move (mv : Iterator.Move)
  | seek (searchKey : κ) (fwd : Bool)
  | invalidate

namespace Iterator

/-! ## 1. Search keys that end within the tree -/

section Ends

variable {K : Set (List UInt8)} {path : NodePtr → List UInt8} {s : Db sizes} {w : List UInt8}
  {slot : Radix.Slot NodePtr UInt8} {sl : Slot} {p : NodePtr} {n : INode NodePtr} {depth : Nat}
  {fwd : Bool} {k rem : KeyView} (h : s.tree.Inv K path)
include h

/-- A search key that ends within the prefix of a node has no byte where the two part. -/
theorem byteAt_shared_error (hat : s.tree.At path k.key sl slot depth rem)
    (hread : s.tree.graph.read slot = some p) (hp : s.tree.deref p = some (.inode n))
    (hkp : k.key <+: path p)
    (hlt : n.keyPrefix.getSharedLength (ArtKey.getU64 rem) < n.keyPrefix.length) :
    ArtKey.byteAt rem (n.keyPrefix.getSharedLength (ArtKey.getU64 rem)) = .error .badAccess := by
  have hrem : rem.key = k.key.drop depth := hat.rem_drop
  have hpre : k.key.drop depth <+: n.keyPrefix.bytes := by
    rw [h.path_eq hread hp] at hkp
    nth_rewrite 1 [← hat.eq_append] at hkp
    exact (List.prefix_append_right_inj _).mp hkp
  refine dif_neg fun hin => ?_
  rw [hrem] at hin
  -- Within the search key the prefix has the same bytes.
  obtain ⟨rest, hrest⟩ := hpre
  refine KeyPrefix.getSharedLength_ne (LawfulArtKey.rem_getU64 hat.rem_drop) hlt ?_
  rw [← hrest, List.getD_eq_getElem?_getD, List.getElem?_append_left hin,
    ← List.getD_eq_getElem?_getD]

theorem seekLoop_ends (hw : Radix.Branching s.tree.Keys w) (hkw : k.key <+: w) {fuel : Nat}
    {it : Iterator} (hat : s.tree.At path k.key sl slot depth rem)
    (hread : s.tree.graph.read slot = some p) (hfuel : k.key.length < fuel + depth) :
    ∃ fault, seekLoop s k fwd fuel p rem it = .error fault := by
  induction fuel generalizing sl slot depth rem p it with
  | zero =>
    have := hat.depth_le
    omega
  | succ fuel ih =>
    obtain ⟨n, hp, hplace⟩ := h.toward_branching hw hread (hat.start.trans hkw)
    have htype : p.type ≠ .leaf := by
      rw [← (Tree.deref_eq_some_iff.mp hp).2]
      exact n.type_ne_leaf
    have hpw : path p <+: w := by
      rcases hplace with heq | ⟨b, c, -, hnext⟩
      · exact heq ▸ List.prefix_rfl
      · exact (List.prefix_append _ _).trans hnext
    simp only [seekLoop, if_neg htype, Tree.readInode_ok hp, bind, Except.bind]
    rcases Nat.lt_or_ge (path p).length k.key.length with hlt | hge
    · have hpk : path p <+: k.key := List.prefix_of_prefix_length_le hpw hkw hlt.le
      have hshared := hat.shared_of_padded h hread hp (z := 0)
        (hpk.trans (List.prefix_append _ _))
      obtain ⟨b, c, hc, hnext⟩ := hplace.resolve_left fun heq => by
        have := hkw.length_le
        rw [← heq] at this
        omega
      have hbk : path p ++ [b] <+: k.key := List.prefix_of_prefix_length_le hnext hkw
        (by rw [List.length_append, List.length_singleton]; omega)
      obtain ⟨rem1, b', rem2, hrem1, hb', hrem2, hpath, -, hlen, hdrop⟩ :=
        hat.take h hread hp hpk hlt
      obtain rfl := Radix.snoc_inj_of_isPrefix hbk hpath
      have hwf : n.WF := h.wf (Tree.deref_eq_some_iff.mp hp).1
      obtain ⟨ci, i, hfind, -⟩ := hwf.exists_findChild hc
      have hreadc : s.tree.graph.read (.child p b) = some c := by
        rw [Tree.graph_read_child hp, hc]
      have hload : s.tree.load (.child p.addr i) = some c := by
        rw [h.load_eq (.child hp hfind), hreadc]
      simp only [if_neg (Nat.not_lt.mpr hshared.ge), hrem1, hb', hfind,
        push_ok ⟨b, ci, n.keyPrefix⟩ htype, Tree.readSlot_ok hload, hrem2]
      exact ih (Tree.At.child hp hfind hpath hlen hdrop) hreadc (by omega)
    · have hkp : k.key <+: path p := List.prefix_of_prefix_length_le hkw hpw hge
      by_cases hlt : n.keyPrefix.getSharedLength (ArtKey.getU64 rem) < n.keyPrefix.length
      · simp only [if_pos hlt, byteAt_shared_error h hat hread hp hkp hlt]
        exact ⟨_, rfl⟩
      · rcases hat.byteAt_error h hread hp hge with hshift | ⟨rem1, hshift, hbyte⟩
        · simp only [if_neg hlt, hshift]
          exact ⟨_, rfl⟩
        · simp only [if_neg hlt, hshift, hbyte]
          exact ⟨_, rfl⟩

/-- A seek for a key that ends at or before a branching of the stored keys reads past its end. -/
theorem seek_ends (hw : Radix.Branching s.tree.Keys w) (hkw : k.key <+: w) :
    ∃ fault, seek s k fwd = .error fault := by
  obtain ⟨q, m, hq, -⟩ := h.exists_inode hw
  cases hroot : s.tree.root with
  | none =>
    have hnone := h.graph.node_eq_none hroot q
    rw [Tree.graph_node_inode hq] at hnone
    cases hnone
  | some root =>
    rw [seek, hroot]
    exact seekLoop_ends h hw hkw (Tree.At.root s.tree path k) hroot (by
      show k.key.length < k.key.length + 1 + 0
      omega)

theorem seek_view_ensures (hfree : Radix.PrefixFree K)
    (hheight : ∀ {p body}, s.tree.deref p = some body → Radix.HeightLE s.tree.graph s.next p) :
    Ensures (seek s k fwd) fun r => SeekResult s.tree fwd k.key .invalid r.1 r.2 := by
  by_cases hend : ∃ p n, s.tree.deref p = some (.inode n) ∧ k.key <+: path p
  · obtain ⟨p, n, hp, hkp⟩ := hend
    obtain ⟨fault, hrun⟩ : ∃ fault, seek s k fwd = .error fault := seek_ends h (h.branching hp) hkp
    rw [hrun]
    exact .error
  · obtain ⟨it, m, hrun, hresult⟩ := seek_spec h hfree fwd hheight (k := k)
      fun p n hp hkp => hend ⟨p, n, hp, hkp⟩
    rw [hrun]
    exact .ok hresult

end Ends

/-! ## 2. Calls -/

/-- The iterator is at the end or at a leaf. -/
def Placed (t : Tree) (it : Iterator) : Prop := it.stack = [] ∨ ∃ k v, it.On t k v

/-- The buffer holds what the stack spells, and that begins the key of the current leaf. -/
structure BufferLaw (t : Tree) (it : Iterator) : Prop where
  exact : it.Exact
  isPrefix : ∀ {key value}, it.entry t = .ok (key, value) → it.keybuf <+: key
  size_le : ∀ {key value}, it.entry t = .ok (key, value) → it.keybuf.length ≤ key.length

theorem Placed.bufferLaw {K : Set (List UInt8)} {path : NodePtr → List UInt8} {t : Tree}
    (h : t.Inv K path) {it : Iterator} (hit : it.Placed t) (hexact : it.Exact) :
    it.BufferLaw t := by
  have hbegins : ∀ {key value}, it.entry t = .ok (key, value) → it.keybuf <+: key := by
    intro key value hentry
    rcases hit with hnil | ⟨k, v, hon⟩
    · rw [entry, hnil] at hentry
      cases hentry
    · obtain ⟨stack, slot, p, hstack, hpath, hread, hp⟩ := hon.at_leaf
      have htype : (leafEntry p).node.type = .leaf := (Tree.deref_eq_some_iff.mp hp).2.symm
      rw [entry, hstack] at hentry
      dsimp only at hentry
      rw [assertThat_pos htype] at hentry
      cases (Tree.readLeaf_ok hp).symm.trans hentry
      rw [show it.keybuf = _ from hexact, hstack, spelled_cons_leaf htype, hpath.spelled_eq h]
      exact (h.graph.firstBelow_leaf (r := Toward true) hread
        (Tree.graph_node_leaf_iff.mpr hp)).below
  exact ⟨hexact, hbegins, fun hentry => (hbegins hentry).length_le⟩

end Iterator

namespace IterCall

open Iterator

variable {κ : Type}

/-- A call of an iterator of `db`. -/
def run [ArtKey κ] (s : Db sizes) (it : Iterator) : IterCall κ → Except Fault Iterator
  | .move mv => it.move s mv
  | .seek searchKey fwd => (Iterator.seek s searchKey fwd).map Prod.fst
  | .invalidate => .ok .invalid

/-- The call pops no entry of an inner node: from a leaf it is no move, unless there is no other
    leaf, and it is no seek that goes back. -/
def Keeps [ArtKey κ] (t : Tree) (it : Iterator) : IterCall κ → Prop
  | .move .next | .move .prior => it.stack = [] ∨ t.Keys.Subsingleton
  | .seek searchKey fwd => Straight t.Keys (ArtKey.getKeyView searchKey) fwd
  | _ => True

section

variable [ArtKey κ] {K : Set (List UInt8)} {path : NodePtr → List UInt8}
  {lost : NodeType → Nat} {s : Db sizes} {it it' : Iterator} (h : s.Inv K path lost)
include h

theorem advance_exact_iff (fwd : Bool) (hit : it.Placed s.tree) (hexact : it.Exact)
    (hrun : advance s fwd it.stack it.keybuf = .ok it') :
    it'.Placed s.tree ∧ (it'.Exact ↔ it.stack = [] ∨ s.tree.Keys.Subsingleton) := by
  rcases hit with hnil | ⟨k, v, hon⟩
  · have heq : it' = it := by
      rw [hnil] at hrun
      cases hrun
      rw [← hnil]
    rw [heq]
    exact ⟨.inl hnil, iff_of_true hexact (.inl hnil)⟩
  · obtain ⟨it₁, hrun₁, hreach⟩ := hon.advance_spec h.tree fwd h.heightLE
    cases hrun.symm.trans hrun₁
    refine ⟨hreach.imp And.left fun ⟨k, v, hon', _⟩ => ⟨k, v, hon'⟩, ?_⟩
    rw [hon.advance_exact_iff h.tree hexact hrun, or_iff_right hon.ne_nil]

/-- `first` and `last` begin with an empty buffer. -/
theorem outermost_exact (fwd : Bool)
    (hrun : (match s.tree.root with
      | none => .ok .invalid
      | some root => traversal s.tree fwd s.next root .invalid) = Except.ok (ε := Fault) it') :
    it'.Placed s.tree ∧ it'.Exact := by
  cases hroot : s.tree.root with
  | none =>
    rw [hroot] at hrun
    cases hrun
    exact ⟨.inl rfl, rfl⟩
  | some root =>
    rw [hroot] at hrun
    dsimp only at hrun
    obtain ⟨it₁, k, v, hrun₁, hon, -⟩ := outermost_spec h.tree fwd h.heightLE root hroot
    cases hrun.symm.trans hrun₁
    exact ⟨.inr ⟨k, v, hon⟩, (traversal_ensures it' hrun).exact rfl⟩

variable (hseek : ∀ (k : κ) (fwd : Bool), Ensures (Iterator.seek s k fwd) fun r =>
  SeekResult s.tree fwd (ArtKey.getKeyView k) .invalid r.1 r.2)
include hseek

/-- What a call does to an iterator whose buffer holds what the stack spells. -/
theorem run_exact_iff {call : IterCall κ} (hit : it.Placed s.tree) (hexact : it.Exact)
    (hrun : call.run s it = .ok it') :
    it'.Placed s.tree ∧ (it'.Exact ↔ call.Keeps s.tree it) := by
  cases call with
  | move mv =>
    cases mv with
    | first =>
      obtain ⟨hplaced, hexact'⟩ := outermost_exact h true hrun
      exact ⟨hplaced, iff_of_true hexact' trivial⟩
    | last =>
      obtain ⟨hplaced, hexact'⟩ := outermost_exact h false hrun
      exact ⟨hplaced, iff_of_true hexact' trivial⟩
    | next => exact advance_exact_iff h true hit hexact hrun
    | prior => exact advance_exact_iff h false hit hexact hrun
  | seek k fwd =>
    have hres := hseek k fwd
    rw [run] at hrun
    cases hrun₁ : Iterator.seek s k fwd with
    | error e =>
      rw [hrun₁] at hrun
      cases hrun
    | ok r =>
      rw [hrun₁] at hrun
      cases hrun
      have hresult := hres r hrun₁
      refine ⟨?_, hresult.exact_iff rfl⟩
      by_cases hdead : DeadEnd s.tree.Keys (ArtKey.getKeyView k) fwd
      · exact (hresult.dead_end hdead).imp id fun ⟨k', v', hon, _⟩ => ⟨k', v', hon⟩
      · exact (hresult.seeks_iff.mpr hdead).imp And.left fun ⟨k', v', hon, _⟩ => ⟨k', v', hon⟩
  | invalidate =>
    cases hrun
    exact ⟨.inl rfl, iff_of_true rfl trivial⟩

end

end IterCall

end Unodb
