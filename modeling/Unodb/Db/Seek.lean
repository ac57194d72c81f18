import Unodb.Db.Buffer
import Unodb.Tree.Branching

/-!
# Where `seek` leads

`seek` goes down for its search key.  Where the key leaves the tree it moves on to the first key at or
beyond it, with one exception: where no child lies beyond the byte of the search key, it does not take
the next sibling above.
-/

namespace Unodb

/-! ## 1. Orders -/

theorem Toward.asymm {α : Type} [Preorder α] {fwd : Bool} {a b : α} (h : Toward fwd a b) :
    ¬ Toward fwd b a := by
  cases fwd with
  | true => exact lt_asymm (show a < b from h)
  | false => exact lt_asymm (show b < a from h)

theorem Toward.total {α : Type} [LinearOrder α] (fwd : Bool) {a b : α} (hab : a ≠ b) :
    Toward fwd a b ∨ Toward fwd b a := by
  cases fwd with
  | true => exact lt_or_gt_of_ne hab
  | false => exact (lt_or_gt_of_ne hab).symm

theorem Toward.flip {α : Type} [LT α] {fwd : Bool} {a b : α} (h : Toward fwd a b) :
    Toward (!fwd) b a := by
  cases fwd <;> exact h

section Strings

variable {fwd : Bool} {x y : List UInt8}

theorem toward_of_precedes (h : Precedes (Toward fwd) x y) : Toward fwd x y := by
  cases fwd with
  | true => exact Precedes.lt h
  | false => exact Precedes.lt h.flip

theorem precedes_of_toward (hxy : ¬ x <+: y) (hyx : ¬ y <+: x) (h : Toward fwd x y) :
    Precedes (Toward fwd) x y := by
  rcases precedes_or_precedes (r := Toward fwd) (fun _ _ hab => Toward.total fwd hab) hxy hyx with
    hp | hp
  · exact hp
  · exact absurd (toward_of_precedes hp) h.asymm

theorem precedes_asymm (h : Precedes (Toward fwd) x y) : ¬ Precedes (Toward fwd) y x :=
  fun h' => (toward_of_precedes h).asymm (toward_of_precedes h')

end Strings

/-- A key is the search key or lies beyond it in the direction. -/
def AtOrBeyond (fwd : Bool) (k x : List UInt8) : Prop := x = k ∨ Toward fwd k x

theorem atOrBeyond_iff {fwd : Bool} {k x : List UInt8} (hxk : ¬ x <+: k) (hkx : ¬ k <+: x) :
    AtOrBeyond fwd k x ↔ Precedes (Toward fwd) k x := by
  constructor
  · rintro (rfl | h)
    · exact absurd List.prefix_rfl hxk
    · exact precedes_of_toward hkx hxk h
  · exact fun h => .inr (toward_of_precedes h)

/-- Where the search for a key ends at an inner node with no child beyond the next byte, although the
    tree has keys beyond the search key: all keys that go on from the branching string `w` stay behind
    the search key, and another one is beyond it. -/
def DeadEnd (K : Set (List UInt8)) (k : List UInt8) (fwd : Bool) : Prop :=
  ∃ w b, Radix.Branching K w ∧ w ++ [b] <+: k ∧
    (∀ x ∈ K, ∀ c, w ++ [c] <+: x → Toward fwd c b) ∧ ∃ x ∈ K, Toward fwd k x

/-- A dead end at which the search goes back to a place from which keys lie beyond: they branch off
    above the inner node over `w` and above its parent. -/
def Stranded (K : Set (List UInt8)) (k : List UInt8) (fwd : Bool) : Prop :=
  ∃ w b, Radix.Branching K w ∧ w ++ [b] <+: k ∧
    (∀ x ∈ K, ∀ c, w ++ [c] <+: x → Toward fwd c b) ∧
    ∃ w', Radix.Branching K w' ∧ w' <+: w ∧ w' ≠ w ∧ ∃ x ∈ K, Precedes (Toward fwd) w' x

theorem Stranded.deadEnd {K : Set (List UInt8)} {k : List UInt8} {fwd : Bool}
    (h : Stranded K k fwd) : DeadEnd K k fwd := by
  obtain ⟨w, b, hw, hwk, hbehind, w', -, hpre, -, x, hx, hbeyond⟩ := h
  refine ⟨w, b, hw, hwk, hbehind, x, hx, toward_of_precedes ?_⟩
  exact hbeyond.mono (hpre.trans ((List.prefix_append _ _).trans hwk)) List.prefix_rfl

/-- Where a search need not go back: there is at most one key, or a key at or beyond the search key
    that shares as much with it as any key does, or the keys all leave the search key together, at
    the first byte in which they differ, and stay behind it. -/
def Straight (K : Set (List UInt8)) (k : List UInt8) (fwd : Bool) : Prop :=
  K.Subsingleton ∨
    (∃ x ∈ K, AtOrBeyond fwd k x ∧ ∀ y ∈ K, ∀ w, w <+: k → w <+: y → w <+: x) ∨
    ∃ w b, Radix.Branching K w ∧ w ++ [b] <+: k ∧ ∀ x ∈ K, ∃ c, w ++ [c] <+: x ∧ Toward fwd c b

theorem not_subsingleton_of_branching {K : Set (List UInt8)} {w : List UInt8}
    (h : Radix.Branching K w) : ¬ K.Subsingleton := by
  obtain ⟨x, hx, y, hy, b, c, hbc, hbx, hcy⟩ := h
  intro hone
  rw [hone hx hy] at hbx
  exact hbc (Radix.snoc_inj_of_isPrefix hbx hcy)

/-- What two strings share ends where they part. -/
theorem isPrefix_of_fork {w u x y : List UInt8} {b c : UInt8} (hbc : b ≠ c) (hx : w ++ [b] <+: x)
    (hy : w ++ [c] <+: y) (hux : u <+: x) (huy : u <+: y) : u <+: w := by
  rcases Nat.lt_or_ge w.length u.length with hlt | hge
  · have hlen : ∀ d : UInt8, (w ++ [d]).length ≤ u.length := fun d => by
      rw [List.length_append, List.length_singleton]
      omega
    exact absurd (Radix.snoc_inj_of_isPrefix (List.prefix_of_prefix_length_le hx hux (hlen b))
      (List.prefix_of_prefix_length_le hy huy (hlen c))) hbc
  · exact List.prefix_of_prefix_length_le hux ((List.prefix_append _ _).trans hx) hge

/-- The bytes at which a search key and a key prefix part. -/
theorem Tree.At.fork {κ : Type} [LawfulArtKey κ] {K : Set (List UInt8)} {t : Tree}
    {path : NodePtr → List UInt8} {k : List UInt8} {sl : Slot} {slot : Radix.Slot NodePtr UInt8}
    {depth : Nat} {rem : κ} {p : NodePtr} {n : INode NodePtr} (h : t.Inv K path)
    (hat : t.At path k sl slot depth rem) (hread : t.graph.read slot = some p)
    (hp : t.deref p = some (.inode n)) (hend : ¬ k <+: path p)
    (hlt : n.keyPrefix.getSharedLength (ArtKey.getU64 rem) < n.keyPrefix.length) :
    ∃ w c b, ArtKey.byteAt rem (n.keyPrefix.getSharedLength (ArtKey.getU64 rem)) = .ok c ∧
      n.keyPrefix.byteAt (n.keyPrefix.getSharedLength (ArtKey.getU64 rem)) = .ok b ∧ c ≠ b ∧
      w ++ [c] <+: k ∧ w ++ [b] <+: path p := by
  obtain ⟨b, c, hb, hc, hbc, htake⟩ := KeyPrefix.getSharedLength_lt
    (LawfulArtKey.rem_getU64 hat.rem_drop) (hat.not_isPrefix_bytes h hread hp hend) hlt
  refine ⟨slot.start path ++ (k.drop depth).take (n.keyPrefix.getSharedLength (ArtKey.getU64 rem)),
    c, b, LawfulArtKey.rem_byteAt hat.rem_drop hc, ?_, Ne.symm hbc, ?_, ?_⟩
  · rw [KeyPrefix.byteAt, if_pos hlt]
    rw [KeyPrefix.bytes_getElem?, if_pos hlt] at hb
    exact congrArg Except.ok (Option.some_inj.mp hb)
  · rw [List.append_assoc]
    refine hat.isPrefix_append_iff.mpr ?_
    rw [show ∀ l : List UInt8, l ++ [c] = l ++ (some c).toList from fun _ => rfl, ← hc,
      ← List.take_add_one]
    exact List.take_prefix _ _
  · rw [h.path_eq hread hp, List.append_assoc, List.prefix_append_right_inj, ← htake,
      show ∀ l : List UInt8, l ++ [b] = l ++ (some b).toList from fun _ => rfl, ← hb,
      ← List.take_add_one]
    exact List.take_prefix _ _

namespace Iterator

/-- `k'` is the first key at or beyond `k`. -/
structure FirstFrom (t : Tree) (fwd : Bool) (k k' : List UInt8) : Prop where
  mem : AtOrBeyond fwd k k'
  first : ∀ {x v}, t.graph.Binds x v → AtOrBeyond fwd k x → AtOrBeyond fwd k' x

/-- The iterator is where a seek should lead: at the first key at or beyond `k`, or at the end when
    there is none. -/
def Seeks (t : Tree) (fwd : Bool) (k : List UInt8) (it : Iterator) : Prop :=
  (it.stack = [] ∧ ∀ {x v}, t.graph.Binds x v → ¬ AtOrBeyond fwd k x) ∨
    ∃ k' v, it.On t k' v ∧ FirstFrom t fwd k k'

/-- What a move beyond `s` reaches is what a seek of `k` should reach, if the same keys lie beyond. -/
theorem Reaches.seeks {t : Tree} {fwd : Bool} {s k : List UInt8} {it : Iterator}
    (h : Reaches t fwd s it)
    (hiff : ∀ {x v}, t.graph.Binds x v → (AtOrBeyond fwd k x ↔ Precedes (Toward fwd) s x)) :
    Seeks t fwd k it := by
  rcases h with ⟨hend, hnone⟩ | ⟨k', v, hon, hnext⟩
  · exact .inl ⟨hend, fun hx hbeyond => hnone hx ((hiff hx).mp hbeyond)⟩
  · refine .inr ⟨k', v, hon, (hiff hon.binds).mpr hnext.after, fun hx hbeyond => ?_⟩
    exact (hnext.first hx ((hiff hx).mp hbeyond)).imp id toward_of_precedes

/-! ## 2. Where the search key leaves the tree -/

section Leave

variable {K : Set (List UInt8)} {path : NodePtr → List UInt8} {t : Tree}
  {slot : Radix.Slot NodePtr UInt8} {p : NodePtr} {n : INode NodePtr} {k x v : List UInt8} {fwd : Bool}
  (h : t.Inv K path) (hread : t.graph.read slot = some p)
  (hp : t.deref p = some (.inode n)) (hstart : slot.start path <+: k)
include h hread hp hstart

/-- A key of the tree and a search key that leaves it at an inner node are not prefixes of one
    another. -/
theorem apart_of_leaves (hfree : Radix.PrefixFree K) (hend : ¬ k <+: path p)
    (hleave : ∀ b c, n.child b = some c → ¬ path p ++ [b] <+: k) (hx : t.graph.Binds x v) :
    ¬ x <+: k ∧ ¬ k <+: x := by
  have hbelow : slot.start path <+: x → ∃ b c, n.child b = some c ∧ path p ++ [b] <+: x :=
    fun hs => h.next_of_binds hread hs hp (Tree.binds_iff.mp hx)
  constructor
  · intro hxk
    have hnot : ¬ slot.start path <+: x := by
      intro hs
      obtain ⟨b, c, hc, hbx⟩ := hbelow hs
      exact hleave b c hc (hbx.trans hxk)
    -- A key above the slot would be a prefix of the keys below it.
    have hxs : x <+: slot.start path :=
      (List.prefix_or_prefix_of_prefix hxk hstart).resolve_right hnot
    obtain ⟨y, ⟨w, hy⟩, hsy, -⟩ := h.leaf_below hread
    obtain ⟨l, hl⟩ := hx
    obtain ⟨l', hl'⟩ := Tree.binds_iff.mpr hy
    have hxy := hfree x (h.graph.key_mem hl) y (h.graph.key_mem hl') (hxs.trans hsy)
    exact hnot (hxy ▸ hsy)
  · intro hkx
    obtain ⟨b, c, hc, hbx⟩ := hbelow (hstart.trans hkx)
    rcases List.prefix_or_prefix_of_prefix hkx hbx with hkb | hbk
    · rcases Nat.lt_or_ge (path p).length k.length with hlt | hge
      · refine hleave b c hc ?_
        rw [hkb.eq_of_length_le (by
          rw [List.length_append, List.length_singleton]
          omega)]
      · exact hend (List.prefix_of_prefix_length_le hkb (List.prefix_append _ _) hge)
    · exact hleave b c hc hbk

omit hp in
omit h hread in
/-- Beyond the search key and above the slot is what is beyond the slot. -/
theorem precedes_start_iff (hx : ¬ slot.start path <+: x) :
    Precedes (Toward fwd) k x ↔ Precedes (Toward fwd) (slot.start path) x :=
  ⟨fun hk => hk.of_isPrefix_left hstart hx, fun hs => hs.mono hstart List.prefix_rfl⟩

variable (hfree : Radix.PrefixFree K) (hend : ¬ k <+: path p) {w : List UInt8} {c b : UInt8}
  (hwk : w ++ [c] <+: k) (hwp : w ++ [b] <+: path p)
include hfree hend hwk hwp

omit h hread hp hstart hfree hend in
/-- The search key parts from the prefix of the node. -/
theorem not_isPrefix_of_fork (hcb : c ≠ b) {b' : UInt8} : ¬ path p ++ [b'] <+: k := by
  intro hpk
  exact hcb (Radix.snoc_inj_of_isPrefix hwk (hwp.trans ((List.prefix_append _ _).trans hpk)))

/-- All keys below the node lie beyond the search key: the first of them is meant. -/
theorem seeks_of_before (hcb : Toward fwd c b) {it : Iterator} {k' v' : List UInt8}
    (hon : it.On t k' v') (hk' : Radix.FirstBelow (Toward fwd) t.graph (slot.start path) k') :
    Seeks t fwd k it := by
  have hne : c ≠ b := fun heq => Toward.irrefl b (heq ▸ hcb)
  have hbelow : ∀ {x v}, t.graph.Binds x v → slot.start path <+: x → Precedes (Toward fwd) k x := by
    intro x v hx hs
    obtain ⟨d, q, -, hdx⟩ := h.next_of_binds hread hs hp (Tree.binds_iff.mp hx)
    exact Precedes.of_fork hcb hwk (hwp.trans ((List.prefix_append _ _).trans hdx))
  refine .inr ⟨k', v', hon, .inr (toward_of_precedes (hbelow hon.binds hk'.below)), ?_⟩
  intro x v hx hbeyond
  by_cases hs : slot.start path <+: x
  · exact (hk'.first hx hs).imp id toward_of_precedes
  · obtain ⟨hxk, hkx⟩ := apart_of_leaves h hread hp hstart hfree hend
      (fun _ _ _ => not_isPrefix_of_fork hwk hwp hne) hx
    have hkx' := (atOrBeyond_iff hxk hkx).mp hbeyond
    refine .inr (toward_of_precedes ?_)
    exact ((precedes_start_iff hstart hs).mp hkx').mono hk'.below List.prefix_rfl

/-- All keys below the node lie before the search key: what comes after the last of them is meant. -/
theorem seeks_of_behind (hbc : Toward fwd b c) {it : Iterator} {k' : List UInt8}
    (hk' : Radix.FirstBelow (Toward !fwd) t.graph (slot.start path) k')
    (hreach : Reaches t fwd k' it) : Seeks t fwd k it := by
  have hne : c ≠ b := fun heq => Toward.irrefl b (heq ▸ hbc)
  refine hreach.seeks fun {x v} hx => ?_
  obtain ⟨hxk, hkx⟩ := apart_of_leaves h hread hp hstart hfree hend
    (fun _ _ _ => not_isPrefix_of_fork hwk hwp hne) hx
  rw [atOrBeyond_iff hxk hkx]
  by_cases hs : slot.start path <+: x
  · obtain ⟨d, q, -, hdx⟩ := h.next_of_binds hread hs hp (Tree.binds_iff.mp hx)
    have hxk' : Precedes (Toward fwd) x k :=
      Precedes.of_fork hbc (hwp.trans ((List.prefix_append _ _).trans hdx)) hwk
    refine iff_of_false (precedes_asymm hxk') ?_
    rcases hk'.first hx hs with rfl | hlt
    · exact Precedes.irrefl Toward.irrefl
    · intro hlt'
      have hback := (toward_of_precedes hlt).flip
      rw [Bool.not_not] at hback
      exact hback.asymm (toward_of_precedes hlt')
  · rw [precedes_start_iff hstart hs]
    exact ⟨fun hs' => hs'.mono hk'.below List.prefix_rfl, fun hs' => hs'.of_isPrefix_left hk'.below hs⟩

end Leave

/-! ## 3. Gaps -/

section Gap

variable {K : Set (List UInt8)} {path : NodePtr → List UInt8} {t : Tree}
  {slot : Radix.Slot NodePtr UInt8} {p : NodePtr} {n : INode NodePtr} {k x v : List UInt8} {b : UInt8}
  {fwd : Bool} (h : t.Inv K path) (hread : t.graph.read slot = some p) (hstart : slot.start path <+: k)
include h hread hstart

/-- The branching of a dead end lies at the place of the search or below it. -/
theorem toward_deadEnd {w : List UInt8} (hw : Radix.Branching t.Keys w) (hwk : w ++ [b] <+: k)
    (hbehind : ∀ x ∈ t.Keys, ∀ c, w ++ [c] <+: x → Toward fwd c b) :
    ∃ n, t.deref p = some (.inode n) ∧
      (path p = w ∨ ∃ b c, n.child b = some c ∧ path p ++ [b] <+: w) := by
  refine h.toward_branching hw hread ?_
  obtain ⟨y, hy, hsy, -⟩ := h.leaf_below hread
  rcases Nat.lt_or_ge w.length (slot.start path).length with hlt | hge
  · -- Then the keys below the slot would go on from it with the byte of the search key.
    have hws : w ++ [b] <+: slot.start path :=
      List.prefix_of_prefix_length_le hwk hstart (by
        rw [List.length_append, List.length_singleton]
        omega)
    exact absurd (hbehind y hy b (hws.trans hsy)) (Toward.irrefl b)
  · exact List.prefix_of_prefix_length_le hstart ((List.prefix_append _ _).trans hwk) hge

theorem not_deadEnd_of_leaf {k' v' : List UInt8} (hp : t.deref p = some (.leaf k' v')) :
    ¬ DeadEnd t.Keys k fwd := by
  rintro ⟨w, b, hw, hwk, hbehind, -⟩
  obtain ⟨n, hp', -⟩ := toward_deadEnd h hread hstart hw hwk hbehind
  rw [hp] at hp'
  cases hp'

theorem not_deadEnd_of_fork (hpk : ¬ path p <+: k) : ¬ DeadEnd t.Keys k fwd := by
  rintro ⟨w, b, hw, hwk, hbehind, -⟩
  obtain ⟨n', -, heq | ⟨b', c, -, hnext⟩⟩ := toward_deadEnd h hread hstart hw hwk hbehind
  · exact hpk (heq ▸ (List.prefix_append _ _).trans hwk)
  · exact hpk (((List.prefix_append _ _).trans hnext).trans ((List.prefix_append _ _).trans hwk))

variable (hp : t.deref p = some (.inode n)) (hpath : path p ++ [b] <+: k) (hb : n.child b = none)
include hp hpath hb

/-- At a gap the keys beyond the search key are those beyond the missing child. -/
theorem atOrBeyond_gap_iff (hfree : Radix.PrefixFree K) (hend : ¬ k <+: path p)
    (hx : t.graph.Binds x v) :
    AtOrBeyond fwd k x ↔ Precedes (Toward fwd) (path p ++ [b]) x := by
  have hleave : ∀ b' c, n.child b' = some c → ¬ path p ++ [b'] <+: k := by
    intro b' c hc hnext
    rw [← Radix.snoc_inj_of_isPrefix hpath hnext, hb] at hc
    cases hc
  obtain ⟨hxk, hkx⟩ := apart_of_leaves h hread hp hstart hfree hend hleave hx
  rw [atOrBeyond_iff hxk hkx]
  refine ⟨fun hk => hk.of_isPrefix_left hpath fun hpx => ?_, fun hs => hs.mono hpath List.prefix_rfl⟩
  have hsx : slot.start path <+: x :=
    ((h.graph.start_isPrefix hread).trans (List.prefix_append _ _)).trans hpx
  exact h.unbound_of_gap hread hsx hp hpx hb v (Tree.binds_iff.mp hx)

/-- Keys that stay behind a search key that ends at a gap branch at the node of the gap. -/
theorem path_of_behind {w : List UInt8} {b₁ : UInt8} (hw : Radix.Branching t.Keys w)
    (hwk : w ++ [b₁] <+: k) (hbehind : ∀ x ∈ t.Keys, ∀ c, w ++ [c] <+: x → Toward fwd c b₁) :
    path p = w := by
  obtain ⟨n', hp', heq | ⟨b₂, c, hc, hnext⟩⟩ := toward_deadEnd h hread hstart hw hwk hbehind
  · exact heq
  · rw [hp] at hp'
    cases hp'
    have heq := Radix.snoc_inj_of_isPrefix hpath
      (hnext.trans ((List.prefix_append _ _).trans hwk))
    rw [← heq, hb] at hc
    cases hc

/-- A gap is a dead end when no child lies beyond it and there are keys beyond the search key. -/
theorem deadEnd_gap_iff (hfree : Radix.PrefixFree K) (hend : ¬ k <+: path p) :
    DeadEnd t.Keys k fwd ↔ (∀ b', (n.child b').isSome → ¬ Toward fwd b b') ∧
      ∃ x v, t.graph.Binds x v ∧ AtOrBeyond fwd k x := by
  constructor
  · rintro ⟨w, b₁, hw, hwk, hbehind, x, ⟨v, hx⟩, hkx⟩
    refine ⟨fun b' hb' hlt => ?_, x, v, Tree.binds_iff.mpr hx, .inr hkx⟩
    obtain rfl := path_of_behind h hread hstart hp hpath hb hw hwk hbehind
    obtain rfl := Radix.snoc_inj_of_isPrefix hpath hwk
    obtain ⟨c, hc⟩ := Option.isSome_iff_exists.mp hb'
    have hreadc : t.graph.read (.child p b') = some c := by rw [Tree.graph_read_child hp, hc]
    obtain ⟨y, hy, hsy, -⟩ := h.leaf_below hreadc
    exact hlt.asymm (hbehind y hy b' hsy)
  · rintro ⟨hnone, x, v, hx, hbeyond⟩
    refine ⟨path p, b, h.branching hp, hpath, ?_, x, ⟨v, Tree.binds_iff.mp hx⟩, ?_⟩
    · rintro y ⟨w, hy⟩ c hc
      have hsy : slot.start path <+: y :=
        ((h.graph.start_isPrefix hread).trans (List.prefix_append _ _)).trans hc
      obtain ⟨c', q, hq, hnext⟩ := h.next_of_binds hread hsy hp hy
      obtain rfl := Radix.snoc_inj_of_isPrefix hc hnext
      have hne : c ≠ b := by
        rintro rfl
        rw [hb] at hq
        cases hq
      exact (Toward.total fwd hne).resolve_right (hnone c (by rw [hq]; rfl))
    · exact toward_of_precedes (((atOrBeyond_gap_iff h hread hstart hp hpath hb hfree hend hx).mp
        hbeyond).mono hpath List.prefix_rfl)

end Gap

/-! ## 4. Searches that do not go back -/

section Straight

variable {K : Set (List UInt8)} {path : NodePtr → List UInt8} {t : Tree}
  {slot : Radix.Slot NodePtr UInt8} {p : NodePtr} {n : INode NodePtr} {k x v : List UInt8}
  {fwd : Bool} (h : t.Inv K path) (hread : t.graph.read slot = some p)
  (hstart : slot.start path <+: k)
include h hread hstart

omit h hread in
/-- The keys below the slot that a search comes to share more with its key than the others do. -/
theorem straight_of_below (hx : t.graph.Binds x v) (hsx : slot.start path <+: x)
    (hbeyond : AtOrBeyond fwd k x)
    (hmost : ∀ y ∈ t.Keys, slot.start path <+: y → ∀ w, w <+: k → w <+: y → w <+: x) :
    Straight t.Keys k fwd := by
  refine .inr (.inl ⟨x, ⟨v, Tree.binds_iff.mp hx⟩, hbeyond, fun y hy w hwk hwy => ?_⟩)
  by_cases hsy : slot.start path <+: y
  · exact hmost y hy hsy w hwk hwy
  · rcases List.prefix_or_prefix_of_prefix hwk hstart with hws | hsw
    · exact hws.trans hsx
    · exact absurd (hsw.trans hwy) hsy

/-- Below the slot everything is behind the search key. -/
theorem not_straight (hbehind : ∀ x ∈ t.Keys, slot.start path <+: x → Toward fwd x k)
    (htwo : ¬ t.Keys.Subsingleton)
    (hfirst : ¬ ∃ w b, Radix.Branching t.Keys w ∧ w ++ [b] <+: k ∧
      ∀ x ∈ t.Keys, ∃ c, w ++ [c] <+: x ∧ Toward fwd c b) : ¬ Straight t.Keys k fwd := by
  rintro (hone | ⟨x, hx, hbeyond, hmost⟩ | hfirst')
  · exact htwo hone
  · obtain ⟨y, hy, hsy, -⟩ := h.leaf_below hread
    have hxk := hbehind x hx (hmost y hy _ hstart hsy)
    rcases hbeyond with rfl | hkx
    · exact Toward.irrefl x hxk
    · exact hxk.asymm hkx
  · exact hfirst hfirst'

/-- Where a search comes to another slot than the root, some key goes on with the search key after
    the first branching. -/
theorem not_first_of_child {p₀ : NodePtr} {b₀ : UInt8} {n₀ : INode NodePtr}
    (hslot : slot = .child p₀ b₀) (hp₀ : t.deref p₀ = some (.inode n₀)) :
    ¬ ∃ w b, Radix.Branching t.Keys w ∧ w ++ [b] <+: k ∧
      ∀ x ∈ t.Keys, ∃ c, w ++ [c] <+: x ∧ Toward fwd c b := by
  subst hslot
  rintro ⟨w, b, -, hwk, hall⟩
  obtain ⟨y, hy, hsy, -⟩ := h.leaf_below hread
  obtain ⟨c, hwy, hcb⟩ := hall y hy
  have hsw : (Radix.Slot.child p₀ b₀).start path <+: w := by
    rcases Nat.lt_or_ge w.length ((Radix.Slot.child p₀ b₀).start path).length with hlt | hge
    · have hlen : (w ++ [b]).length ≤ ((Radix.Slot.child p₀ b₀).start path).length := by
        rw [List.length_append, List.length_singleton]
        omega
      have hws : w ++ [b] <+: (Radix.Slot.child p₀ b₀).start path :=
        List.prefix_of_prefix_length_le hwk hstart hlen
      obtain rfl := Radix.snoc_inj_of_isPrefix hwy (hws.trans hsy)
      exact absurd hcb (Toward.irrefl c)
    · exact List.prefix_of_prefix_length_le hstart ((List.prefix_append _ _).trans hwk) hge
  -- So all keys lie below the slot, but another child of its node has keys, too.
  have hbelow : ∀ x ∈ t.Keys, path p₀ ++ [b₀] <+: x := by
    intro x hx
    obtain ⟨c', hwx, -⟩ := hall x hx
    exact hsw.trans ((List.prefix_append _ _).trans hwx)
  obtain ⟨x, hx, x', hx', b, b', hbb, hbx, hbx'⟩ := h.branching hp₀
  exact hbb ((Radix.snoc_inj_of_isPrefix hbx (hbelow x hx)).trans
    (Radix.snoc_inj_of_isPrefix hbx' (hbelow x' hx')).symm)

omit hread hstart in
/-- A search that parts from the prefix of the root does so before the first branching. -/
theorem not_first_of_fork (hroot : t.graph.read .root = some p) (hp : t.deref p = some (.inode n))
    {w₀ : List UInt8} {c₀ b₀ : UInt8} (hne : c₀ ≠ b₀) (hwk₀ : w₀ ++ [c₀] <+: k)
    (hwp₀ : w₀ ++ [b₀] <+: path p) :
    ¬ ∃ w b, Radix.Branching t.Keys w ∧ w ++ [b] <+: k ∧
      ∀ x ∈ t.Keys, ∃ c, w ++ [c] <+: x ∧ Toward fwd c b := by
  rintro ⟨w, b, ⟨x, hx, x', hx', d, d', hdd, hdx, hdx'⟩, hwk, hall⟩
  have hkeys : ∀ y ∈ t.Keys, w₀ ++ [b₀] <+: y := by
    rintro y ⟨v, hy⟩
    obtain ⟨b', q, -, hnext⟩ := h.next_of_binds hroot List.nil_prefix hp hy
    exact hwp₀.trans ((List.prefix_append _ _).trans hnext)
  obtain ⟨c, hwx, hcb⟩ := hall x hx
  have hcb' : c ≠ b := fun heq => Toward.irrefl b (heq ▸ hcb)
  -- The search key leaves the keys at one place.
  have hlen : w.length = w₀.length := by
    rcases Nat.lt_trichotomy w.length w₀.length with hlt | heq | hgt
    · have hww : w ++ [b] <+: w₀ := List.prefix_of_prefix_length_le hwk
        ((List.prefix_append _ _).trans hwk₀) (by
          rw [List.length_append, List.length_singleton]
          omega)
      exact absurd (Radix.snoc_inj_of_isPrefix hwx
        (hww.trans ((List.prefix_append _ _).trans (hkeys x hx)))) hcb'
    · exact heq
    · have hww : w₀ ++ [c₀] <+: w := List.prefix_of_prefix_length_le hwk₀
        ((List.prefix_append _ _).trans hwk) (by
          rw [List.length_append, List.length_singleton]
          omega)
      exact absurd (Radix.snoc_inj_of_isPrefix (hww.trans ((List.prefix_append _ _).trans hwx))
        (hkeys x hx)) hne
  have hw : w = w₀ := (List.prefix_of_prefix_length_le ((List.prefix_append _ _).trans hwk)
    ((List.prefix_append _ _).trans hwk₀) hlen.le).eq_of_length hlen
  subst hw
  exact hdd ((Radix.snoc_inj_of_isPrefix hdx (hkeys x hx)).trans
    (Radix.snoc_inj_of_isPrefix hdx' (hkeys x' hx')).symm)

end Straight

/-- A move from a leaf keeps the buffer exact only where there is no other leaf. -/
theorem On.advance_exact_iff {K : Set (List UInt8)} {path : NodePtr → List UInt8} {s : Db sizes}
    (h : s.tree.Inv K path) {it : Iterator} {x v : List UInt8} {fwd : Bool}
    (hon : it.On s.tree x v) (hexact : it.Exact) {it' : Iterator}
    (hrun : advance s fwd it.stack it.keybuf = .ok it') :
    it'.Exact ↔ s.tree.Keys.Subsingleton := by
  obtain ⟨stack, slot, p, hstack, hpath, hread, hp⟩ := hon.at_leaf
  have htype : p.type = .leaf := (Tree.deref_eq_some_iff.mp hp).2.symm
  have hexact' : Exact ⟨leafEntry p :: stack, it.keybuf⟩ := by
    rw [← hstack]
    exact hexact
  rw [hstack] at hrun
  refine (advance_leaf_ensures htype hpath.inner hexact' it' hrun).trans ?_
  cases hpath with
  | root =>
    refine iff_of_true rfl ?_
    have hall : ∀ y ∈ s.tree.Keys, y = x := by
      rintro y ⟨w, hy⟩
      exact (h.graph.eq_of_leaf hread (Tree.graph_node_leaf_iff.mpr hp) (Tree.binds_iff.mpr hy)
        List.nil_prefix).1
    exact fun y hy z hz => (hall y hy).trans (hall z hz).symm
  | child hpath₀ hread₀ hp₀ hres₀ =>
    exact iff_of_false (List.cons_ne_nil _ _) (not_subsingleton_of_branching (h.branching hp₀))

end Iterator

/-- `gte_key_byte` and `lte_key_byte` for a byte that has no child. -/
theorem INode.WF.nearest {P : Type} {n : INode P} (h : n.WF) (fwd : Bool) {b : UInt8}
    (hb : n.child b = none) : n.Finds fwd {a | Toward fwd b a} (n.nearest fwd b) := by
  have hne : ∀ {a}, (n.child a).isSome → a ≠ b := by
    rintro a ha rfl
    rw [hb] at ha
    cases ha
  have hset : ∀ {S : Set UInt8}, (∀ a, a ≠ b → (a ∈ S ↔ Toward fwd b a)) →
      n.boundIn S = n.boundIn {a | Toward fwd b a} := by
    intro S hS
    ext a
    exact and_congr_left fun ha => hS a (hne ha)
  have hfinds : ∀ {S r}, n.boundIn S = n.boundIn {a | Toward fwd b a} → n.Finds fwd S r →
      n.Finds fwd {a | Toward fwd b a} r := by
    intro S r heq hr
    cases r with
    | none => exact heq.symm.trans hr
    | some e => exact ⟨hr.1, heq ▸ hr.2⟩
  cases fwd with
  | true =>
    refine hfinds (hset fun a ha => ?_) (h.gteKeyByte b).finds
    exact ⟨fun hle => lt_of_le_of_ne hle (Ne.symm ha), le_of_lt⟩
  | false =>
    refine hfinds (hset fun a ha => ?_) (h.lteKeyByte b).finds
    exact ⟨fun hle => lt_of_le_of_ne hle ha, le_of_lt⟩

namespace Iterator

/-! ## 5. The loops of `seek` -/

section Loop

variable {K : Set (List UInt8)} {path : NodePtr → List UInt8} {s : Db sizes} (h : s.tree.Inv K path)
  (fwd : Bool) (hheight : ∀ {p body}, s.tree.deref p = some body →
    Radix.HeightLE s.tree.graph s.next p)
  {stack : List StackEntry} {slot : Radix.Slot NodePtr UInt8} {keybuf : List UInt8}
include h hheight

/-- Where unwinding from a slot ends: with an empty stack if no keys lie beyond the slot, or at the
    first leaf below a place on the stack that has keys beyond it. -/
def Unwound (t : Tree) (path : NodePtr → List UInt8) (fwd : Bool) (slot : Radix.Slot NodePtr UInt8)
    (it : Iterator) : Prop :=
  (it.stack = [] ∧ ∀ {x v}, t.graph.Binds x v → ¬ Precedes (Toward fwd) (slot.start path) x) ∨
    ∃ (slot' : Radix.Slot NodePtr UInt8) (k' v' : List UInt8), it.On t k' v' ∧
      Radix.FirstBelow (Toward fwd) t.graph (slot'.start path) k' ∧
      slot'.start path <+: slot.start path ∧
      ∃ x v, t.graph.Binds x v ∧ Precedes (Toward fwd) (slot'.start path) x

theorem unwind_spec (hpath : OnPath s.tree stack slot) (hbuf : prefixBytes stack ≤ keybuf.length) :
    ∃ it', unwind s fwd stack keybuf = .ok it' ∧ Unwound s.tree path fwd slot it' := by
  induction hpath generalizing keybuf with
  | root =>
    refine ⟨_, rfl, .inl ⟨rfl, fun _ hbeyond => ?_⟩⟩
    exact hbeyond.not_isPrefix Toward.irrefl List.nil_prefix
  | @child stack slot p n e hpath hread hp hres ih =>
    have hwf : n.WF := h.wf (Tree.deref_eq_some_iff.mp hp).1
    obtain ⟨i, hfind⟩ := hres.find
    obtain ⟨r, hsib, hr⟩ := hwf.sibling fwd hfind
    rw [unwind, Tree.readInode_ok hp]
    show ∃ it', (n.sibling fwd e.childIndex >>= _) = _ ∧ _
    rw [hsib]
    cases r with
    | none =>
      obtain ⟨keybuf', hpop, hbuf'⟩ := popKeybuf_buffered hbuf
      obtain ⟨it', hrun, hresult⟩ := ih hbuf'
      have hlast : ∀ b', (n.child b').isSome → ¬ Toward fwd e.keyByte b' := by
        intro b' hb' hlt
        have hmem : b' ∈ n.boundIn {a | Toward fwd e.keyByte a} := ⟨hlt, hb'⟩
        rw [show n.boundIn {a | Toward fwd e.keyByte a} = ∅ from hr] at hmem
        exact hmem
      refine ⟨it', ?_, hresult.imp ?_ ?_⟩
      · show (popKeybuf keybuf _ >>= _) = _
        rw [hpop]
        exact hrun
      · rintro ⟨hend, hnone⟩
        refine ⟨hend, fun hx hbeyond => hnone hx ?_⟩
        exact (h.graph.after_last_child Toward.irrefl hread (Tree.graph_node_inode hp) hlast hx).mp
          hbeyond
      · rintro ⟨slot', k', v', hon, hfirst, habove, hbeyond⟩
        exact ⟨slot', k', v', hon, hfirst, (habove.trans (h.graph.start_isPrefix hread)).trans
          (List.prefix_append _ _), hbeyond⟩
    | some e2 =>
      -- The sibling is there, but the way down is that of the entry itself.
      obtain ⟨c, hc, hget⟩ := hwf.getChild_of_isResult hres
      have hread' : s.tree.graph.read (.child p e.keyByte) = some c := by
        rw [Tree.graph_read_child hp, hc]
      obtain ⟨m, hm, -⟩ := h.graph.live hread'
      obtain ⟨body, hbody, -⟩ := Option.map_eq_some_iff.mp hm
      obtain ⟨it', k', v', hrun, hon, hbelow⟩ := traversal_spec h fwd (hheight hbody)
        (hpath.child hread hp hres) hread' hbuf
      refine ⟨it', ?_, .inr ⟨_, k', v', hon, hbelow, List.prefix_rfl, ?_⟩⟩
      · simp only [bind, Except.bind, hget]
        exact hrun
      · obtain ⟨c2, hc2⟩ := Option.isSome_iff_exists.mp hr.2.1.2
        have hread2 : s.tree.graph.read (.child p e2.keyByte) = some c2 := by
          rw [Tree.graph_read_child hp, hc2]
        obtain ⟨x, ⟨v, hx⟩, hsx, -⟩ := h.leaf_below hread2
        exact ⟨x, v, Tree.binds_iff.mpr hx, Precedes.of_fork hr.2.1.1 List.prefix_rfl hsx⟩

end Loop

section Unwound

variable {path : NodePtr → List UInt8} {t : Tree} {slot slot₀ : Radix.Slot NodePtr UInt8}
  {k : List UInt8} {fwd : Bool} {it : Iterator} (hresult : Unwound t path fwd slot₀ it)
  (habove : slot₀.start path <+: slot.start path)
include hresult habove

/-- Unwinding is right when there is nothing to find. -/
theorem seeks_of_unwound
    (hiff : ∀ {x v}, t.graph.Binds x v →
      (AtOrBeyond fwd k x ↔ Precedes (Toward fwd) (slot.start path) x))
    (hnone : ¬ ∃ x v, t.graph.Binds x v ∧ AtOrBeyond fwd k x) : Seeks t fwd k it := by
  rcases hresult with ⟨hend, -⟩ | ⟨slot', k', v', -, -, hup, x, v, hx, hbeyond⟩
  · exact .inl ⟨hend, fun hx hb => hnone ⟨_, _, hx, hb⟩⟩
  · exact absurd ⟨x, v, hx, (hiff hx).mpr (hbeyond.mono (hup.trans habove) List.prefix_rfl)⟩ hnone

/-- Where it ends at a leaf, the leaf is before the search key. -/
theorem before_of_unwound {y w : List UInt8} (hy : t.graph.Binds y w) (hslot : slot.start path <+: y)
    (hyk : Toward fwd y k) : it.stack = [] ∨ ∃ k' v', it.On t k' v' ∧ Toward fwd k' k := by
  refine hresult.imp And.left ?_
  rintro ⟨slot', k', v', hon, hfirst, hup, -⟩
  refine ⟨k', v', hon, ?_⟩
  rcases hfirst.first hy ((hup.trans habove).trans hslot) with rfl | hlt
  · exact hyk
  · cases fwd with
    | true => exact lt_trans (toward_of_precedes hlt) hyk
    | false => exact lt_trans hyk (toward_of_precedes hlt)

end Unwound

/-- Unwinding from the parent of a gap ends at a leaf where the search is stranded. -/
theorem stranded_iff_of_unwound {K : Set (List UInt8)} {path : NodePtr → List UInt8} {t : Tree}
    (h : t.Inv K path) {slot₀ : Radix.Slot NodePtr UInt8} {p₀ p : NodePtr} {n₀ n : INode NodePtr}
    {k : List UInt8} {b₀ b : UInt8} {fwd : Bool} {it : Iterator}
    (hread₀ : t.graph.read slot₀ = some p₀) (hp₀ : t.deref p₀ = some (.inode n₀))
    (hread : t.graph.read (.child p₀ b₀) = some p)
    (hstart : (Radix.Slot.child p₀ b₀).start path <+: k) (hp : t.deref p = some (.inode n))
    (hpath : path p ++ [b] <+: k) (hb : n.child b = none)
    (hlast : ∀ b', (n.child b').isSome → ¬ Toward fwd b b') (hresult : Unwound t path fwd slot₀ it) :
    it.stack ≠ [] ↔ Stranded t.Keys k fwd := by
  have habove : path p₀ ++ [b₀] <+: path p := h.graph.start_isPrefix hread
  have hne : path p₀ ≠ path p := by
    intro heq
    have hle := habove.length_le
    rw [heq, List.length_append, List.length_singleton] at hle
    omega
  constructor
  · intro hstack
    obtain ⟨hend, -⟩ | ⟨slot', k', v', hon, -, hup, x, v, hx, hbeyond⟩ := hresult
    · exact absurd hend hstack
    refine ⟨path p, b, h.branching hp, hpath, ?_, path p₀, h.branching hp₀,
      (List.prefix_append _ _).trans habove, hne, x, ⟨v, Tree.binds_iff.mp hx⟩, ?_⟩
    · rintro y ⟨w, hy⟩ c hc
      obtain ⟨d, q, hq, hdy⟩ := h.next_of_binds hread
        (((h.graph.start_isPrefix hread).trans (List.prefix_append _ _)).trans hc) hp hy
      obtain rfl := Radix.snoc_inj_of_isPrefix hc hdy
      have hcb : c ≠ b := by
        rintro rfl
        rw [hb] at hq
        cases hq
      exact (Toward.total fwd hcb).resolve_right (hlast c (by rw [hq]; rfl))
    · exact hbeyond.mono (hup.trans (h.graph.start_isPrefix hread₀)) List.prefix_rfl
  · rintro ⟨w, b₁, hw, hwk, hbehind, w', hw', hpre, hww, x, ⟨v, hx⟩, hbeyond⟩ hend
    obtain rfl := path_of_behind h hread hstart hp hpath hb hw hwk hbehind
    -- The branching above lies at the parent or above it.
    have hparent : w' <+: path p₀ := by
      rcases Nat.lt_or_ge (path p₀).length w'.length with hlt | hge
      · have hlen : (path p₀ ++ [b₀]).length ≤ w'.length := by
          rw [List.length_append, List.length_singleton]
          omega
        have hsw : (Radix.Slot.child p₀ b₀).start path <+: w' :=
          List.prefix_of_prefix_length_le habove hpre hlen
        obtain ⟨m, -, heq | ⟨b₂, c, -, hbelow⟩⟩ := h.toward_branching hw' hread hsw
        · exact absurd heq.symm hww
        · have hle := (hbelow.trans hpre).length_le
          rw [List.length_append, List.length_singleton] at hle
          omega
      · exact List.prefix_of_prefix_length_le hpre ((List.prefix_append _ _).trans habove) hge
    have hx' : ¬ slot₀.start path <+: x := by
      intro hsx
      obtain ⟨d, q, -, hdx⟩ := h.next_of_binds hread₀ hsx hp₀ hx
      exact hbeyond.not_isPrefix Toward.irrefl (hparent.trans ((List.prefix_append _ _).trans hdx))
    have hslot : Precedes (Toward fwd) (slot₀.start path) x :=
      (hbeyond.mono hparent List.prefix_rfl).of_isPrefix_left (h.graph.start_isPrefix hread₀) hx'
    obtain ⟨-, hnone⟩ | ⟨slot', k', v', hon, -⟩ := hresult
    · exact hnone (Tree.binds_iff.mpr hx) hslot
    · exact hon.ne_nil hend

/-- An iterator at the end or before the search key is not where the seek should lead, if there are
    keys at or beyond the search key. -/
theorem not_seeks {t : Tree} {k : List UInt8} {fwd : Bool} {it : Iterator}
    (hplace : it.stack = [] ∨ ∃ k' v', it.On t k' v' ∧ Toward fwd k' k)
    (hsome : ∃ x v, t.graph.Binds x v ∧ AtOrBeyond fwd k x) : ¬ Seeks t fwd k it := by
  rintro (⟨-, hnone⟩ | ⟨k₁, v₁, hon₁, hfirst⟩)
  · obtain ⟨x, v, hx, hb⟩ := hsome
    exact hnone hx hb
  · rcases hplace with hnil | ⟨k', v', hon, hlt⟩
    · exact hon₁.ne_nil hnil
    · rw [← (hon.unique hon₁).1] at hfirst
      rcases hfirst.mem with heq | hlt'
      · exact Toward.irrefl k (heq ▸ hlt)
      · exact hlt.asymm hlt'

/-- What `seek` returns, started with an iterator `it₀`: an iterator and `match`. -/
structure SeekResult (t : Tree) (fwd : Bool) (k : List UInt8) (it₀ it : Iterator) (m : Bool) :
    Prop where
  matches_iff : m = true ↔ k ∈ t.Keys
  seeks_iff : Seeks t fwd k it ↔ ¬ DeadEnd t.Keys k fwd
  /-- At a dead end the iterator is invalid or at a key before the search key. -/
  dead_end : DeadEnd t.Keys k fwd → it.stack = [] ∨ ∃ k' v', it.On t k' v' ∧ Toward fwd k' k
  before_iff : (∃ k' v', it.On t k' v' ∧ Toward fwd k' k) ↔ Stranded t.Keys k fwd
  exact_iff : it₀.Exact → (it.Exact ↔ Straight t.Keys k fwd)

/-- The result where the search does not come to a dead end. -/
theorem SeekResult.of_seeks {t : Tree} {fwd : Bool} {k : List UInt8} {it₀ it : Iterator} {m : Bool}
    (hmatch : m = true ↔ k ∈ t.Keys) (hnot : ¬ DeadEnd t.Keys k fwd) (hseeks : Seeks t fwd k it)
    (hexact : it₀.Exact → (it.Exact ↔ Straight t.Keys k fwd)) : SeekResult t fwd k it₀ it m where
  matches_iff := hmatch
  seeks_iff := iff_of_true hseeks hnot
  dead_end hd := absurd hd hnot
  before_iff := by
    refine iff_of_false ?_ fun hs => hnot hs.deadEnd
    rintro ⟨k', v', hon, hlt⟩
    rcases hseeks with ⟨hend, -⟩ | ⟨k₁, v₁, hon₁, hfirst⟩
    · exact hon.ne_nil hend
    · rw [← (hon.unique hon₁).1] at hfirst
      rcases hfirst.mem with heq | hlt'
      · exact Toward.irrefl k (heq ▸ hlt)
      · exact hlt.asymm hlt'
  exact_iff := hexact

theorem SeekResult.of_pushes {t : Tree} {fwd : Bool} {k : List UInt8} {it₀ it₁ it : Iterator}
    {m : Bool} (h : SeekResult t fwd k it₁ it m) (hpush : Pushes it₀ it₁) :
    SeekResult t fwd k it₀ it m :=
  { h with exact_iff := fun hexact => h.exact_iff (hpush.exact hexact) }

section Leaf

variable {K : Set (List UInt8)} {path : NodePtr → List UInt8} {t : Tree}
  {slot : Radix.Slot NodePtr UInt8} {p : NodePtr} {k k' v' x v : List UInt8} {fwd : Bool}
  {it : Iterator} (h : t.Inv K path) (hfree : Radix.PrefixFree K)
  (hread : t.graph.read slot = some p) (hstart : slot.start path <+: k)
  (hp : t.deref p = some (.leaf k' v'))
include h hfree hread hstart hp

/-- The search key ends at a leaf: beyond it are the key of the leaf, if that is beyond it, and what
    is beyond the leaf. -/
theorem atOrBeyond_leaf_iff (hne : k ≠ k') (hx : t.graph.Binds x v) :
    AtOrBeyond fwd k x ↔ (x = k' ∧ Toward fwd k k') ∨ Precedes (Toward fwd) k' x := by
  have hleaf := Tree.graph_node_leaf_iff.mpr hp
  have hstart' : slot.start path <+: k' :=
    (h.graph.firstBelow_leaf (r := Toward fwd) hread hleaf).below
  by_cases hs : slot.start path <+: x
  · obtain rfl := (h.graph.eq_of_leaf hread hleaf hx hs).1
    constructor
    · rintro (heq | hlt)
      · exact absurd heq.symm hne
      · exact .inl ⟨rfl, hlt⟩
    · rintro (⟨-, hlt⟩ | hlt)
      · exact .inr hlt
      · exact absurd hlt (Precedes.irrefl Toward.irrefl)
  · have hxk : ¬ x <+: k := by
      intro hxk
      have hxs := (List.prefix_or_prefix_of_prefix hxk hstart).resolve_right hs
      obtain ⟨l, hl⟩ := hx
      have heq := hfree x (h.graph.key_mem hl) k' (h.graph.key_mem hleaf) (hxs.trans hstart')
      exact hs (heq ▸ hstart')
    have hkx : ¬ k <+: x := fun hkx => hs (hstart.trans hkx)
    have hxk' : x ≠ k' := fun heq => hs (heq ▸ hstart')
    rw [atOrBeyond_iff hxk hkx, precedes_start_iff hstart hs]
    constructor
    · exact fun hlt => .inr (hlt.mono hstart' List.prefix_rfl)
    · rintro (⟨heq, -⟩ | hlt)
      · exact absurd heq hxk'
      · exact hlt.of_isPrefix_left hstart' hs

theorem seeks_leaf_before (hlt : Toward fwd k k') (hon : it.On t k' v') : Seeks t fwd k it := by
  have hne : k ≠ k' := fun heq => Toward.irrefl k' (heq ▸ hlt)
  refine .inr ⟨k', v', hon, .inr hlt, fun hx hbeyond => ?_⟩
  rcases (atOrBeyond_leaf_iff h hfree hread hstart hp hne hx).mp hbeyond with ⟨rfl, -⟩ | hafter
  · exact .inl rfl
  · exact .inr (toward_of_precedes hafter)

theorem seeks_leaf_behind (hlt : Toward fwd k' k) (hreach : Reaches t fwd k' it) :
    Seeks t fwd k it := by
  have hne : k ≠ k' := fun heq => Toward.irrefl k' (heq ▸ hlt)
  refine hreach.seeks fun hx => ?_
  rw [atOrBeyond_leaf_iff h hfree hread hstart hp hne hx, or_iff_right]
  rintro ⟨-, hkk⟩
  exact hlt.asymm hkk

end Leaf

/-- The sign of a comparison tells whether the search key comes before the key of the leaf. -/
theorem cmp_toward_iff {κ : Type} [ArtKey κ] (k : κ) (key : List UInt8) (fwd : Bool) :
    (if fwd then ArtKey.cmp k key < 0 else 0 < ArtKey.cmp k key) ↔
      Toward fwd (ArtKey.getKeyView k) key := by
  cases fwd with
  | true => exact compare_neg_iff _ _
  | false => exact compare_pos_iff _ _

section Seek

variable {κ : Type} [LawfulArtKey κ] {K : Set (List UInt8)} {path : NodePtr → List UInt8} {s : Db sizes}
  (h : s.tree.Inv K path) (hfree : Radix.PrefixFree K) (fwd : Bool)
  (hheight : ∀ {p body}, s.tree.deref p = some body → Radix.HeightLE s.tree.graph s.next p)
  {stack : List StackEntry} {slot : Radix.Slot NodePtr UInt8} {sl : Slot} {p : NodePtr} {k rem : κ}
  {keybuf : List UInt8} {depth : Nat} {n : INode NodePtr}
include h hfree hheight

/-- A round of `seek` at a leaf. -/
theorem seekLoop_leaf {fuel : Nat} (hstart : slot.start path <+: ArtKey.getKeyView k)
    (hread : s.tree.graph.read slot = some p) (htype : p.type = .leaf)
    (hpath : OnPath s.tree stack slot) (hbuf : prefixBytes stack ≤ keybuf.length) :
    ∃ it' m, seekLoop s k fwd (fuel + 1) p rem ⟨stack, keybuf⟩ = .ok (it', m) ∧
      SeekResult s.tree fwd (ArtKey.getKeyView k) ⟨stack, keybuf⟩ it' m := by
  obtain ⟨k', v', hp, -⟩ := h.leaf_of_tag hread htype
  have hnot : ¬ DeadEnd s.tree.Keys (ArtKey.getKeyView k) fwd :=
    not_deadEnd_of_leaf h hread hstart hp
  have hon : Iterator.On s.tree ⟨leafEntry p :: stack, keybuf⟩ k' v' := by
    refine ⟨⟨stack, slot, p, rfl, hpath, hread, hp⟩, ?_⟩
    rw [prefixBytes_cons, leafEntry_length, Nat.zero_add]
    exact hbuf
  have hpushed : Iterator.Exact ⟨stack, keybuf⟩ → Iterator.Exact ⟨leafEntry p :: stack, keybuf⟩ :=
    (show Pushes ⟨stack, keybuf⟩ ⟨leafEntry p :: stack, keybuf⟩ from pushLeaf_pushes htype).exact
  -- The leaf has the only key below the slot.
  have honly : ∀ {y v}, s.tree.graph.Binds y v → slot.start path <+: y → y = k' :=
    fun hy hsy => (h.graph.eq_of_leaf hread (Tree.graph_node_leaf_iff.mpr hp) hy hsy).1
  have hbelow : slot.start path <+: k' :=
    (h.graph.firstBelow_leaf (r := Toward fwd) hread (Tree.graph_node_leaf_iff.mpr hp)).below
  have hstraight : AtOrBeyond fwd (ArtKey.getKeyView k) k' →
      Straight s.tree.Keys (ArtKey.getKeyView k) fwd := by
    intro hbeyond
    refine straight_of_below hstart hon.binds hbelow hbeyond ?_
    rintro y ⟨v, hy⟩ hsy w - hwy
    exact honly (Tree.binds_iff.mpr hy) hsy ▸ hwy
  simp only [seekLoop, if_pos htype, Tree.readLeaf_ok hp, bind, Except.bind, pushLeaf]
  by_cases heq : ArtKey.getKeyView k = k'
  · have hmatch : (true = true) ↔ ArtKey.getKeyView k ∈ s.tree.Keys :=
      iff_of_true rfl ⟨v', Tree.binds_iff.mp (heq ▸ hon.binds)⟩
    refine ⟨_, true, if_pos ((ArtKey.cmp_eq_zero_iff k k').mpr heq), .of_seeks hmatch hnot ?_ ?_⟩
    · exact .inr ⟨k', v', hon, .inl heq.symm, fun _ hx => heq ▸ hx⟩
    · exact fun hexact => iff_of_true (hpushed hexact) (hstraight (.inl heq.symm))
  · have hunbound : (false = true) ↔ ArtKey.getKeyView k ∈ s.tree.Keys := by
      refine iff_of_false Bool.false_ne_true ?_
      rintro ⟨v, hv⟩
      exact h.unbound_of_leaf hread hstart hp heq v hv
    rw [if_neg (mt (ArtKey.cmp_eq_zero_iff k k').mp heq)]
    by_cases hlt : Toward fwd (ArtKey.getKeyView k) k'
    · refine ⟨_, false, if_pos ((cmp_toward_iff k k' fwd).mpr hlt), .of_seeks hunbound hnot ?_ ?_⟩
      · exact seeks_leaf_before h hfree hread hstart hp hlt hon
      · exact fun hexact => iff_of_true (hpushed hexact) (hstraight (.inr hlt))
    · have hlt' : Toward fwd k' (ArtKey.getKeyView k) := (Toward.total fwd heq).resolve_left hlt
      obtain ⟨it', hrun, hreach⟩ := hon.advance_spec h fwd hheight
      refine ⟨it', false, ?_, .of_seeks hunbound hnot ?_ fun hexact => ?_⟩
      · rw [if_neg (mt (cmp_toward_iff k k' fwd).mp hlt), hrun]
        rfl
      · exact seeks_leaf_behind h hfree hread hstart hp hlt' hreach
      · rw [hon.advance_exact_iff h (hpushed hexact) hrun]
        refine ⟨.inl, fun hs => ?_⟩
        by_contra htwo
        refine not_straight h hread hstart ?_ htwo ?_ hs
        · rintro x ⟨v, hx⟩ hsx
          exact honly (Tree.binds_iff.mpr hx) hsx ▸ hlt'
        · cases hpath with
          | root =>
            refine absurd ?_ htwo
            rintro x ⟨v, hx⟩ y ⟨w, hy⟩
            exact (honly (Tree.binds_iff.mpr hx) List.nil_prefix).trans
              (honly (Tree.binds_iff.mpr hy) List.nil_prefix).symm
          | child hpath₀ hread₀ hp₀ hres₀ => exact not_first_of_child h hread hstart rfl hp₀

variable (hat : s.tree.At path (ArtKey.getKeyView k) sl slot depth rem)
  (hread : s.tree.graph.read slot = some p) (hp : s.tree.deref p = some (.inode n))
  (hend : ¬ ArtKey.getKeyView k <+: path p) (hpath : OnPath s.tree stack slot)
  (hbuf : prefixBytes stack ≤ keybuf.length)
include hat hread hp hend hpath hbuf

/-- A round of `seek` at a node whose key prefix the search key does not share. -/
theorem seekLoop_fork {fuel : Nat}
    (hlt : n.keyPrefix.getSharedLength (ArtKey.getU64 rem) < n.keyPrefix.length) :
    ∃ it' m, seekLoop s k fwd (fuel + 1) p rem ⟨stack, keybuf⟩ = .ok (it', m) ∧
      SeekResult s.tree fwd (ArtKey.getKeyView k) ⟨stack, keybuf⟩ it' m := by
  have htype : p.type ≠ .leaf := by
    rw [← (Tree.deref_eq_some_iff.mp hp).2]
    exact n.type_ne_leaf
  obtain ⟨w, c, b, hc, hb, hcb, hwk, hwp⟩ := hat.fork h hread hp hend hlt
  have hpk : ¬ path p <+: ArtKey.getKeyView k := fun hpk =>
    hcb (Radix.snoc_inj_of_isPrefix hwk (hwp.trans hpk))
  have hnot : ¬ DeadEnd s.tree.Keys (ArtKey.getKeyView k) fwd :=
    not_deadEnd_of_fork h hread hat.start hpk
  have hunbound : (false = true) ↔ ArtKey.getKeyView k ∈ s.tree.Keys := by
    refine iff_of_false Bool.false_ne_true ?_
    rintro ⟨v, hv⟩
    exact h.unbound_of_prefix hread hat.start hp hpk v hv
  have hfork : ∀ {x v}, s.tree.graph.Binds x v → slot.start path <+: x → w ++ [b] <+: x := by
    intro x v hx hsx
    obtain ⟨d, q, -, hdx⟩ := h.next_of_binds hread hsx hp (Tree.binds_iff.mp hx)
    exact hwp.trans ((List.prefix_append _ _).trans hdx)
  -- Down on one side of the node, and on from there when the node lies behind the search key.
  have hdown : ∀ dir, ∃ it' k' v', traversal s.tree dir s.next p ⟨stack, keybuf⟩ = .ok it' ∧
      it'.On s.tree k' v' ∧ Radix.FirstBelow (Toward dir) s.tree.graph (slot.start path) k' :=
    fun dir => traversal_spec h dir (hheight hp) hpath hread hbuf
  have hbefore : Toward fwd c b → ∃ it', traversal s.tree fwd s.next p ⟨stack, keybuf⟩ = .ok it' ∧
      SeekResult s.tree fwd (ArtKey.getKeyView k) ⟨stack, keybuf⟩ it' false := by
    intro hlt
    obtain ⟨it', k', v', hrun, hon, hfirst⟩ := hdown fwd
    refine ⟨it', hrun, .of_seeks hunbound hnot ?_ fun hexact => ?_⟩
    · exact seeks_of_before h hread hp hat.start hfree hend hwk hwp hlt hon hfirst
    · refine iff_of_true ((traversal_ensures it' hrun).exact hexact) ?_
      refine straight_of_below hat.start hon.binds hfirst.below ?_ ?_
      · exact .inr (toward_of_precedes (Precedes.of_fork hlt hwk (hfork hon.binds hfirst.below)))
      · rintro y ⟨v, hy⟩ hsy u huk huy
        have huw := isPrefix_of_fork hcb hwk (hfork (Tree.binds_iff.mpr hy) hsy) huk huy
        exact huw.trans ((List.prefix_append _ _).trans (hfork hon.binds hfirst.below))
  have hbehind : Toward fwd b c → ∃ it₁ it', traversal s.tree (!fwd) s.next p ⟨stack, keybuf⟩ =
      .ok it₁ ∧ advance s fwd it₁.stack it₁.keybuf = .ok it' ∧
      SeekResult s.tree fwd (ArtKey.getKeyView k) ⟨stack, keybuf⟩ it' false := by
    intro hlt
    obtain ⟨it₁, k', v', hrun, hon, hfirst⟩ := hdown (!fwd)
    obtain ⟨it', hnext, hreach⟩ := hon.advance_spec h fwd hheight
    have htwo := not_subsingleton_of_branching (h.branching hp)
    refine ⟨it₁, it', hrun, hnext, .of_seeks hunbound hnot ?_ fun hexact => ?_⟩
    · exact seeks_of_behind h hread hp hat.start hfree hend hwk hwp hlt hfirst hreach
    · rw [hon.advance_exact_iff h ((traversal_ensures it₁ hrun).exact hexact) hnext]
      refine iff_of_false htwo (not_straight h hread hat.start ?_ htwo ?_)
      · rintro x ⟨v, hx⟩ hsx
        exact toward_of_precedes (Precedes.of_fork hlt (hfork (Tree.binds_iff.mpr hx) hsx) hwk)
      · cases hpath with
        | root => exact not_first_of_fork h hread hp hcb hwk hwp
        | child hpath₀ hread₀ hp₀ hres₀ => exact not_first_of_child h hread hat.start rfl hp₀
  simp only [seekLoop, if_neg htype, Tree.readInode_ok hp, bind, Except.bind, if_pos hlt, hc, hb,
    assertThat_pos hcb, leftMostTraversal, rightMostTraversal]
  cases fwd with
  | true =>
    by_cases hlt' : c < b
    · obtain ⟨it', hrun, hresult⟩ := hbefore hlt'
      exact ⟨it', false, by rw [if_pos hlt', hrun]; rfl, hresult⟩
    · obtain ⟨it₁, it', hrun, hnext, hresult⟩ := hbehind (lt_of_le_of_ne (not_lt.mp hlt') hcb.symm)
      refine ⟨it', false, ?_, hresult⟩
      rw [if_neg hlt', show traversal s.tree false s.next p ⟨stack, keybuf⟩ = .ok it₁ from hrun]
      show (next s it₁ >>= _) = _
      rw [next, hnext]
      rfl
  | false =>
    by_cases hlt' : c < b
    · obtain ⟨it₁, it', hrun, hnext, hresult⟩ := hbehind hlt'
      refine ⟨it', false, ?_, hresult⟩
      rw [if_pos hlt', show traversal s.tree true s.next p ⟨stack, keybuf⟩ = .ok it₁ from hrun]
      show (prior s it₁ >>= _) = _
      rw [prior, hnext]
      rfl
    · obtain ⟨it', hrun, hresult⟩ := hbefore (lt_of_le_of_ne (not_lt.mp hlt') hcb.symm)
      exact ⟨it', false, by rw [if_neg hlt', hrun]; rfl, hresult⟩

/-- A round of `seek` at a node that has no child for the next byte of the search key. -/
theorem seekLoop_gap {fuel : Nat} {rem1 : κ} {b : UInt8}
    (hshared : n.keyPrefix.getSharedLength (ArtKey.getU64 rem) = n.keyPrefix.length)
    (hrem1 : ArtKey.shiftRight rem n.keyPrefix.length = .ok rem1)
    (hb : ArtKey.byteAt rem1 0 = .ok b) (hnext : path p ++ [b] <+: ArtKey.getKeyView k)
    (hfind : n.findChild b = none) :
    ∃ it' m, seekLoop s k fwd (fuel + 1) p rem ⟨stack, keybuf⟩ = .ok (it', m) ∧
      SeekResult s.tree fwd (ArtKey.getKeyView k) ⟨stack, keybuf⟩ it' m := by
  have htype : p.type ≠ .leaf := by
    rw [← (Tree.deref_eq_some_iff.mp hp).2]
    exact n.type_ne_leaf
  have hwf : n.WF := h.wf (Tree.deref_eq_some_iff.mp hp).1
  have hnode := Tree.graph_node_inode hp
  have hchild : n.child b = none := (hwf.findChild_eq_none_iff b).mp hfind
  have hunbound : (false = true) ↔ ArtKey.getKeyView k ∈ s.tree.Keys := by
    refine iff_of_false Bool.false_ne_true ?_
    rintro ⟨v, hv⟩
    exact h.unbound_of_gap hread hat.start hp hnext hchild v hv
  have hbeyond : ∀ {x v}, s.tree.graph.Binds x v →
      (AtOrBeyond fwd (ArtKey.getKeyView k) x ↔ Precedes (Toward fwd) (path p ++ [b]) x) :=
    fun hx => atOrBeyond_gap_iff h hread hat.start hp hnext hchild hfree hend hx
  have hdead : DeadEnd s.tree.Keys (ArtKey.getKeyView k) fwd ↔ _ :=
    deadEnd_gap_iff h hread hat.start hp hnext hchild hfree hend
  have hnearest := hwf.nearest fwd hchild
  -- What goes on below the node does so with another byte than the search key.
  have hfork : ∀ {x v}, s.tree.graph.Binds x v → slot.start path <+: x →
      ∃ d q, n.child d = some q ∧ d ≠ b ∧ path p ++ [d] <+: x := by
    intro x v hx hsx
    obtain ⟨d, q, hq, hdx⟩ := h.next_of_binds hread hsx hp (Tree.binds_iff.mp hx)
    refine ⟨d, q, hq, ?_, hdx⟩
    rintro rfl
    rw [hchild] at hq
    cases hq
  simp only [seekLoop, if_neg htype, Tree.readInode_ok hp, bind, Except.bind,
    if_neg (Nat.not_lt.mpr hshared.ge), hrem1, hb, hfind]
  cases hnear : n.nearest fwd b with
  | some tmp =>
    rw [hnear] at hnearest
    obtain ⟨hres, hfirst⟩ := hnearest
    obtain ⟨c, hc, hget⟩ := hwf.getChild_of_isResult hres
    have hread' : s.tree.graph.read (.child p tmp.keyByte) = some c := by
      rw [Tree.graph_read_child hp, hc]
    obtain ⟨m, hm, -⟩ := h.graph.live hread'
    obtain ⟨body, hbody, -⟩ := Option.map_eq_some_iff.mp hm
    obtain ⟨it', k', v', hrun, hon, hbelow⟩ := traversal_spec h fwd (hheight hbody)
      (hpath.child hread hp hres) hread' (push_buffered p tmp hbuf)
    have hnot : ¬ DeadEnd s.tree.Keys (ArtKey.getKeyView k) fwd :=
      fun hd => (hdead.mp hd).1 tmp.keyByte hfirst.1.2 hfirst.1.1
    have hafter : Radix.NextAfter (Toward fwd) s.tree.graph (path p ++ [b]) k' :=
      h.graph.nextAfter_sibling Toward.irrefl hread hnode
        ⟨⟨hfirst.1.2, hfirst.1.1⟩, fun b' hb' => hfirst.2 b' ⟨hb'.2, hb'.1⟩⟩ hbelow
    have hseeks : Seeks s.tree fwd (ArtKey.getKeyView k) it' :=
      Reaches.seeks (.inr ⟨k', v', hon, hafter⟩) hbeyond
    refine ⟨it', false, ?_, .of_seeks hunbound hnot hseeks fun hexact => ?_⟩
    · simp only [hget, push_ok tmp htype, hrun]
      rfl
    · have hpushes : Pushes ⟨stack, keybuf⟩ it' :=
        (push_ensures ⟨stack, keybuf⟩ p tmp _ (push_ok tmp htype)).trans (traversal_ensures it' hrun)
      have hpx : path p <+: k' := (List.prefix_append _ _).trans hbelow.below
      refine iff_of_true (hpushes.exact hexact) (straight_of_below hat.start hon.binds
        ((h.graph.start_isPrefix hread).trans hpx) ((hbeyond hon.binds).mpr hafter.after) ?_)
      rintro y ⟨v, hy⟩ hsy u huk huy
      obtain ⟨d, q, -, hdb, hdy⟩ := hfork (Tree.binds_iff.mpr hy) hsy
      exact (isPrefix_of_fork hdb.symm hnext hdy huk huy).trans hpx
  | none =>
    rw [hnear] at hnearest
    have hlast : ∀ b', (n.child b').isSome → ¬ Toward fwd b b' := by
      intro b' hb' hlt
      have hmem : b' ∈ n.boundIn {a | Toward fwd b a} := ⟨hlt, hb'⟩
      rw [show n.boundIn {a | Toward fwd b a} = ∅ from hnearest] at hmem
      exact hmem
    have hiff : ∀ {x v}, s.tree.graph.Binds x v →
        (AtOrBeyond fwd (ArtKey.getKeyView k) x ↔ Precedes (Toward fwd) (slot.start path) x) :=
      fun hx => (hbeyond hx).trans (h.graph.after_last_child Toward.irrefl hread hnode hlast hx)
    cases hpath with
    | root =>
      -- The root has nothing beyond the search key, and the iterator is at the end.
      have hnone : ∀ {x v}, s.tree.graph.Binds x v → ¬ AtOrBeyond fwd (ArtKey.getKeyView k) x :=
        fun hx hb => ((hiff hx).mp hb).not_isPrefix Toward.irrefl List.nil_prefix
      have hnot : ¬ DeadEnd s.tree.Keys (ArtKey.getKeyView k) fwd := by
        intro hd
        obtain ⟨-, x, v, hx, hb⟩ := hdead.mp hd
        exact hnone hx hb
      refine ⟨_, false, rfl, .of_seeks hunbound hnot (.inl ⟨rfl, hnone⟩) fun hexact => ?_⟩
      refine iff_of_true hexact (.inr (.inr ⟨path p, b, h.branching hp, hnext, ?_⟩))
      rintro x ⟨v, hx⟩
      obtain ⟨d, q, hq, hdb, hdx⟩ := hfork (Tree.binds_iff.mpr hx) List.nil_prefix
      exact ⟨d, hdx, (Toward.total fwd hdb).resolve_right (hlast d (by rw [hq]; rfl))⟩
    | @child stack₀ slot₀ p₀ n₀ e₀ hpath₀ hread₀ hp₀ hres₀ =>
      obtain ⟨keybuf', hpop, hbuf'⟩ := popKeybuf_buffered hbuf
      obtain ⟨it', hrun, hresult⟩ := unwind_spec h fwd hheight hpath₀ hbuf'
      have habove : slot₀.start path <+: (Radix.Slot.child p₀ e₀.keyByte).start path :=
        (h.graph.start_isPrefix hread₀).trans (List.prefix_append _ _)
      -- The keys below the node are before the search key.
      have hbehind : ∀ y ∈ s.tree.Keys, (Radix.Slot.child p₀ e₀.keyByte).start path <+: y →
          Toward fwd y (ArtKey.getKeyView k) := by
        rintro y ⟨w, hy⟩ hsy
        obtain ⟨d, q, hq, hdb, hdy⟩ := hfork (Tree.binds_iff.mpr hy) hsy
        have hdb' : Toward fwd d b :=
          (Toward.total fwd hdb).resolve_right (hlast d (by rw [hq]; rfl))
        exact toward_of_precedes (Precedes.of_fork hdb' hdy hnext)
      obtain ⟨y, ⟨w, hy⟩, hsy, -⟩ := h.leaf_below hread
      have hplace := before_of_unwound hresult habove (Tree.binds_iff.mpr hy) hsy
        (hbehind y ⟨w, hy⟩ hsy)
      have hstranded := stranded_iff_of_unwound h hread₀ hp₀ hread hat.start hp hnext hchild hlast
        hresult
      refine ⟨it', false, ?_, hunbound, ?_, fun _ => hplace, ?_, fun hexact => ?_⟩
      · show (do let keybuf ← popKeybuf keybuf _; return (← unwind s fwd stack₀ keybuf, false)) = _
        rw [hpop]
        show (unwind s fwd stack₀ keybuf' >>= _) = _
        rw [hrun]
        rfl
      · by_cases hsome : ∃ x v, s.tree.graph.Binds x v ∧ AtOrBeyond fwd (ArtKey.getKeyView k) x
        · exact iff_of_false (not_seeks hplace hsome) (not_not.mpr (hdead.mpr ⟨hlast, hsome⟩))
        · exact iff_of_true (seeks_of_unwound hresult habove hiff hsome)
            fun hd => hsome (hdead.mp hd).2
      · rw [← hstranded]
        constructor
        · rintro ⟨k', v', hon, -⟩
          exact hon.ne_nil
        · exact fun hne => hplace.resolve_left hne
      · have htype₀ : p₀.type ≠ .leaf := (Tree.deref_eq_some_iff.mp hp₀).2 ▸ n₀.type_ne_leaf
        have hle := unwind_ensures hpath₀.inner it' hrun
        have hpopped := popKeybuf_ensures keybuf stack₀ htype₀ keybuf' hpop
        rw [hexact.excess_eq] at hpopped
        refine iff_of_false (fun hex => ?_) ?_
        · rw [hpopped, hex.excess_eq] at hle
          omega
        · exact not_straight h hread hat.start hbehind
            (not_subsingleton_of_branching (h.branching hp)) (not_first_of_child h hread hat.start rfl hp₀)

end Seek

section Seek

variable {κ : Type} [LawfulArtKey κ] {K : Set (List UInt8)} {path : NodePtr → List UInt8} {s : Db sizes}
  (h : s.tree.Inv K path) (hfree : Radix.PrefixFree K) (fwd : Bool)
  (hheight : ∀ {p body}, s.tree.deref p = some body → Radix.HeightLE s.tree.graph s.next p)
  {k rem : κ}
  (hend : ∀ p n, s.tree.deref p = some (.inode n) → ¬ ArtKey.getKeyView k <+: path p)
include h hfree hheight hend

theorem seekLoop_spec {fuel depth : Nat} {stack : List StackEntry} {keybuf : List UInt8} {sl : Slot}
    {slot : Radix.Slot NodePtr UInt8} {p : NodePtr}
    (hat : s.tree.At path (ArtKey.getKeyView k) sl slot depth rem)
    (hread : s.tree.graph.read slot = some p) (hpath : OnPath s.tree stack slot)
    (hbuf : prefixBytes stack ≤ keybuf.length)
    (hfuel : (ArtKey.getKeyView k).length < fuel + depth) :
    ∃ it' m, seekLoop s k fwd fuel p rem ⟨stack, keybuf⟩ = .ok (it', m) ∧
      SeekResult s.tree fwd (ArtKey.getKeyView k) ⟨stack, keybuf⟩ it' m := by
  have hstays : s.tree.Stays path (ArtKey.getKeyView k) :=
    fun p n hp z heq => hend p n hp ⟨List.replicate z 0, heq.symm⟩
  induction fuel generalizing sl slot depth rem p stack keybuf with
  | zero =>
    have := hat.depth_le
    omega
  | succ fuel ih =>
    by_cases htype : p.type = .leaf
    · exact seekLoop_leaf h hfree fwd hheight hat.start hread htype hpath hbuf
    · obtain ⟨n, hp, hwf, -⟩ := h.inode_of_tag hread htype
      by_cases hlt : n.keyPrefix.getSharedLength (ArtKey.getU64 rem) < n.keyPrefix.length
      · exact seekLoop_fork h hfree fwd hheight hat hread hp (hend p n hp) hpath hbuf hlt
      · obtain ⟨hshared, rem1, b, rem2, hrem1, hb, hrem2, hnext, hbyte, hlen, hdrop⟩ :=
          hat.pass h hread hp hstays hlt
        cases hfind : n.findChild b with
        | none =>
          exact seekLoop_gap h hfree fwd hheight hat hread hp (hend p n hp) hpath hbuf hshared hrem1
            hb hnext hfind
        | some r =>
          obtain ⟨ci, i⟩ := r
          obtain ⟨q, hq, -⟩ := hwf.findChild_eq_some hfind
          have hreadq : s.tree.graph.read (.child p b) = some q := by
            rw [Tree.graph_read_child hp, hq]
          have hload : s.tree.load (.child p.addr i) = some q := by
            rw [h.load_eq (.child hp hfind), hreadq]
          have hres : n.IsResult ⟨b, ci, n.keyPrefix⟩ := ⟨⟨i, hfind⟩, rfl⟩
          obtain ⟨it', m, hrun, hresult⟩ := ih (Tree.At.child hp hfind hnext hlen hdrop) hreadq
            (hpath.child hread hp hres) (push_buffered p ⟨b, ci, n.keyPrefix⟩ hbuf) (by omega)
          refine ⟨it', m, ?_, hresult.of_pushes ?_⟩
          · simp only [seekLoop, if_neg htype, Tree.readInode_ok hp, bind, Except.bind, if_neg hlt,
              hrem1, hb, hfind, push_ok ⟨b, ci, n.keyPrefix⟩ htype, Tree.readSlot_ok hload, hrem2]
            exact hrun
          · exact push_ensures ⟨stack, keybuf⟩ p ⟨b, ci, n.keyPrefix⟩ _ (push_ok _ htype)

theorem seek_spec : ∃ it' m, seek s k fwd = .ok (it', m) ∧
    SeekResult s.tree fwd (ArtKey.getKeyView k) .invalid it' m := by
  cases hroot : s.tree.root with
  | none =>
    have hnone : ∀ {x v}, ¬ s.tree.graph.Binds x v := by
      rintro x v ⟨y, hy⟩
      rw [h.graph.node_eq_none hroot] at hy
      cases hy
    have hnot : ¬ DeadEnd s.tree.Keys (ArtKey.getKeyView k) fwd := by
      rintro ⟨-, -, -, -, -, x, ⟨v, hx⟩, -⟩
      exact hnone (Tree.binds_iff.mpr hx)
    refine ⟨.invalid, false, by rw [seek, hroot], .of_seeks ?_ hnot ?_ fun hexact => ?_⟩
    · refine iff_of_false Bool.false_ne_true ?_
      rintro ⟨v, hv⟩
      exact hnone (Tree.binds_iff.mpr hv)
    · exact .inl ⟨rfl, fun hx => absurd hx hnone⟩
    · refine iff_of_true hexact (.inl ?_)
      rintro x ⟨v, hx⟩
      exact absurd (Tree.binds_iff.mpr hx) hnone
  | some root =>
    rw [seek, hroot]
    exact seekLoop_spec h hfree fwd hheight hend (Tree.At.root s.tree path k) hroot .root
      (Nat.zero_le _) (by rw [LawfulArtKey.size_eq]; omega)

end Seek

end Iterator

end Unodb
