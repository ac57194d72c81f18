import Mathlib.Data.Finset.Card
import Mathlib.Data.List.Infix
import Mathlib.Data.Set.Basic
import Mathlib.Logic.Function.Basic

/-!
# Path-compressed radix trees as pointer graphs

A graph of addressed nodes: a leaf holds a whole key and a value, an inner node holds a compressed
prefix and a partial map from symbols to children.  The invariant is local.  It attaches to every
node the string `path` spelt from the root through the node's own prefix, and says of every edge
that the string spelt up to it and the node below it fit together.  That the edges form a tree, and
that a search for a key meets the only leaf that can hold it, follow.
-/

namespace Radix

variable {A S V : Type}

/-- A node of the graph. -/
inductive Node (A S V : Type) where
  | leaf (key : List S) (value : V)
  | inner (pre : List S) (child : S → Option A)

/-- A root pointer and the live nodes. -/
structure Graph (A S V : Type) where
  root : Option A
  node : A → Option (Node A S V)

/-- A place that holds a pointer to a node. -/
inductive Slot (A S : Type) where
  | root
  | child (a : A) (b : S)

/-- The string spelt up to a slot. -/
def Slot.start (path : A → List S) : Slot A S → List S
  | .root => []
  | .child a b => path a ++ [b]

theorem Slot.start_child (path : A → List S) (a : A) (b : S) :
    (Slot.child a b).start path = path a ++ [b] := rfl

/-- The child of what an address holds. -/
def childOf : Option (Node A S V) → S → Option A
  | some (.inner _ child), b => child b
  | _, _ => none

namespace Graph

def read (g : Graph A S V) : Slot A S → Option A
  | .root => g.root
  | .child a b => childOf (g.node a) b

/-- The map a graph stores. -/
def Binds (g : Graph A S V) (k : List S) (v : V) : Prop := ∃ x, g.node x = some (.leaf k v)

end Graph

/-- The node at `x` fits a slot up to which the string `s` is spelt. -/
def StartsAt (path : A → List S) (x : A) : Node A S V → List S → Prop
  | .leaf k _, s => path x = k ∧ s <+: k
  | .inner pre _, s => path x = s ++ pre

theorem StartsAt.isPrefix {path : A → List S} {x : A} {n : Node A S V} {s : List S}
    (h : StartsAt path x n s) : s <+: path x := by
  cases n with
  | leaf k v => exact h.1 ▸ h.2
  | inner pre c => exact ⟨pre, h.symm⟩

/-- No key of the set is a proper prefix of another one. -/
def PrefixFree (K : Set (List S)) : Prop := ∀ k ∈ K, ∀ k' ∈ K, k <+: k' → k = k'

/-- The invariant of a graph whose keys come from `K`. -/
structure Inv (K : Set (List S)) (g : Graph A S V) (path : A → List S) : Prop where
  /-- A pointer leads to a live node that fits its slot. -/
  live : ∀ {slot x}, g.read slot = some x →
    ∃ n, g.node x = some n ∧ StartsAt path x n (slot.start path)
  /-- A live node is pointed to. -/
  pointed : ∀ {x n}, g.node x = some n → ∃ slot, g.read slot = some x
  key_mem : ∀ {x k v}, g.node x = some (.leaf k v) → k ∈ K
  branching : ∀ {x pre c}, g.node x = some (.inner pre c) →
    ∃ b b', b ≠ b' ∧ (c b).isSome ∧ (c b').isSome
  bounded : ∃ N, ∀ {x n}, g.node x = some n → (path x).length ≤ N

theorem childOf_eq_some_iff {n : Option (Node A S V)} {b : S} {x : A} :
    childOf n b = some x ↔ ∃ pre c, n = some (.inner pre c) ∧ c b = some x := by
  constructor
  · intro h
    match n, h with
    | some (.inner pre c), h => exact ⟨pre, c, rfl, h⟩
  · rintro ⟨pre, c, rfl, h⟩
    exact h

theorem read_child_iff {g : Graph A S V} {a x : A} {b : S} :
    g.read (.child a b) = some x ↔ ∃ pre c, g.node a = some (.inner pre c) ∧ c b = some x :=
  childOf_eq_some_iff

/-! ## 1. The way a key takes from the root -/

theorem snoc_inj_of_isPrefix {w k : List S} {b b' : S} (h : w ++ [b] <+: k)
    (h' : w ++ [b'] <+: k) : b = b' := by
  have heq : w ++ [b] = w ++ [b'] :=
    (List.prefix_of_prefix_length_le h h' (by simp)).eq_of_length (by simp)
  rw [List.append_cancel_left_eq, List.cons.injEq] at heq
  exact heq.1

/-- `y` is the child that a search for `k` goes to from the inner node `a`. -/
def Next (g : Graph A S V) (path : A → List S) (k : List S) (a y : A) : Prop :=
  ∃ b, g.read (.child a b) = some y ∧ path a ++ [b] <+: k

/-- `x` is the `i`-th node on the way of `k`. -/
inductive Way (g : Graph A S V) (path : A → List S) (k : List S) : Nat → A → Prop where
  | root {x} : g.root = some x → Way g path k 0 x
  | next {i a y} : Way g path k i a → Next g path k a y → Way g path k (i + 1) y

theorem Next.unique {g : Graph A S V} {path : A → List S} {k : List S} {a y y' : A}
    (h : Next g path k a y) (h' : Next g path k a y') : y = y' := by
  obtain ⟨b, hb, hk⟩ := h
  obtain ⟨b', hb', hk'⟩ := h'
  rw [snoc_inj_of_isPrefix hk hk', hb', Option.some_inj] at hb
  exact hb.symm

theorem Way.unique {g : Graph A S V} {path : A → List S} {k : List S} {i : Nat} {x x' : A}
    (h : Way g path k i x) (h' : Way g path k i x') : x = x' := by
  induction h generalizing x' with
  | root hx =>
    cases h' with
    | root hx' => exact Option.some_inj.mp (hx.symm.trans hx')
  | next _ hn ih =>
    cases h' with
    | next ha' hn' =>
      rw [← ih ha'] at hn'
      exact hn.unique hn'

/-- A later node of a way is reached through the successor of an earlier one. -/
theorem Way.exists_next {g : Graph A S V} {path : A → List S} {k : List S} {i j : Nat} {x y : A}
    (hx : Way g path k i x) (hy : Way g path k j y) (hij : i < j) :
    ∃ z, Next g path k x z := by
  induction hy generalizing i x with
  | root => exact absurd hij (Nat.not_lt_zero i)
  | @next j a y ha hn ih =>
    rcases Nat.lt_or_eq_of_le (Nat.le_of_lt_succ hij) with hlt | heq
    · exact ih hx hlt
    · subst heq
      rw [hx.unique ha]
      exact ⟨y, hn⟩

namespace Inv

variable {K : Set (List S)} {g : Graph A S V} {path : A → List S}

theorem start_isPrefix (h : Inv K g path) {slot : Slot A S} {x : A} (hx : g.read slot = some x) :
    slot.start path <+: path x := by
  obtain ⟨n, -, hs⟩ := h.live hx
  exact hs.isPrefix

theorem path_lt_of_child (h : Inv K g path) {a x : A} {b : S}
    (hx : g.read (.child a b) = some x) : (path a).length < (path x).length := by
  have := (h.start_isPrefix hx).length_le
  simp only [Slot.start, List.length_append, List.length_singleton] at this
  omega

/-- Whatever hangs on a slot that the key passes is on the way of the key. -/
theorem exists_way (h : Inv K g path) {k : List S} {slot : Slot A S} {x : A}
    (hx : g.read slot = some x) (hs : slot.start path <+: k) : ∃ i, Way g path k i x := by
  obtain ⟨m, hm⟩ : ∃ m, (slot.start path).length = m := ⟨_, rfl⟩
  induction m using Nat.strongRecOn generalizing slot x with
  | ind m ih =>
    cases slot with
    | root => exact ⟨0, .root hx⟩
    | child a b =>
      obtain ⟨pre, c, hnode, -⟩ := read_child_iff.mp hx
      obtain ⟨up, hup⟩ := h.pointed hnode
      have hupa := h.start_isPrefix hup
      have hak : path a <+: k := (List.prefix_append _ _).trans hs
      have hlen : (up.start path).length < m := by
        have := hupa.length_le
        simp only [Slot.start, List.length_append, List.length_singleton] at hm
        omega
      obtain ⟨i, hi⟩ := ih _ hlen hup (hupa.trans hak) rfl
      exact ⟨i + 1, .next hi ⟨b, hx, hs⟩⟩

theorem way_path_lt (h : Inv K g path) {k : List S} {i j : Nat} {x y : A}
    (hx : Way g path k i x) (hy : Way g path k j y) (hij : i < j) :
    (path x).length < (path y).length := by
  induction hy generalizing i x with
  | root => exact absurd hij (Nat.not_lt_zero i)
  | @next j a y ha hn ih =>
    obtain ⟨b, hb, -⟩ := hn
    have hay := h.path_lt_of_child hb
    rcases Nat.lt_or_eq_of_le (Nat.le_of_lt_succ hij) with hlt | heq
    · exact Nat.lt_trans (ih hx hlt) hay
    · subst heq
      rw [hx.unique ha]
      exact hay

theorem way_index_unique (h : Inv K g path) {k : List S} {i j : Nat} {x : A}
    (hi : Way g path k i x) (hj : Way g path k j x) : i = j := by
  rcases Nat.lt_trichotomy i j with hlt | heq | hgt
  · exact absurd (h.way_path_lt hi hj hlt) (Nat.lt_irrefl _)
  · exact heq
  · exact absurd (h.way_path_lt hj hi hgt) (Nat.lt_irrefl _)

/-- A node hangs on one slot only. -/
theorem slot_unique (h : Inv K g path) {slot slot' : Slot A S} {x : A}
    (hx : g.read slot = some x) (hx' : g.read slot' = some x) : slot = slot' := by
  have hs := h.start_isPrefix hx
  have hs' := h.start_isPrefix hx'
  -- The parents of `x` lie on the way of `path x` just before `x`.
  have hparent : ∀ {a b}, g.read (.child a b) = some x →
      ∃ i, Way g path (path x) i a ∧ Way g path (path x) (i + 1) x := by
    intro a b hab
    have hpre := h.start_isPrefix hab
    obtain ⟨pre, c, hnode, -⟩ := read_child_iff.mp hab
    obtain ⟨up, hup⟩ := h.pointed hnode
    obtain ⟨i, hi⟩ := h.exists_way hup
      ((h.start_isPrefix hup).trans ((List.prefix_append _ _).trans hpre))
    exact ⟨i, hi, .next hi ⟨b, hab, hpre⟩⟩
  cases slot with
  | root =>
    cases slot' with
    | root => rfl
    | child a' b' =>
      obtain ⟨i, -, hi⟩ := hparent hx'
      have := h.way_index_unique (.root hx) hi
      omega
  | child a b =>
    obtain ⟨i, hia, hix⟩ := hparent hx
    cases slot' with
    | root =>
      have := h.way_index_unique (.root hx') hix
      omega
    | child a' b' =>
      obtain ⟨j, hja, hjx⟩ := hparent hx'
      have hij := h.way_index_unique hix hjx
      have heq : a = a' := by
        obtain rfl : i = j := by omega
        exact hia.unique hja
      subst heq
      have hbb : path a ++ [b] = path a ++ [b'] :=
        List.IsPrefix.eq_of_length (List.prefix_of_prefix_length_le hs hs' (by simp))
          (by simp)
      rw [List.append_cancel_left_eq, List.cons.injEq] at hbb
      rw [hbb.1]

/-- A search for a stored key goes on from every node on its way that is not the leaf. -/
theorem toward_leaf (h : Inv K g path) {k : List S} {v : V} {l x : A}
    (hl : g.node l = some (.leaf k v)) {slot : Slot A S} (hx : g.read slot = some x)
    (hs : slot.start path <+: k) : x = l ∨ ∃ y, Next g path k x y := by
  obtain ⟨up, hup⟩ := h.pointed hl
  obtain ⟨n, hn, hstart⟩ := h.live hup
  rw [hl] at hn
  cases hn
  obtain ⟨i, hi⟩ := h.exists_way hx hs
  obtain ⟨j, hj⟩ := h.exists_way hup hstart.2
  rcases Nat.lt_trichotomy i j with hlt | heq | hgt
  · exact .inr (hi.exists_next hj hlt)
  · subst heq
    exact .inl (hi.unique hj)
  · obtain ⟨y, b, hb, -⟩ := hj.exists_next hi hgt
    obtain ⟨pre, c, hnode, -⟩ := read_child_iff.mp hb
    rw [hl] at hnode
    cases hnode

/-- Two leaves do not hold the same key. -/
theorem leaf_unique (h : Inv K g path) {k : List S} {v v' : V} {l l' : A}
    (hl : g.node l = some (.leaf k v)) (hl' : g.node l' = some (.leaf k v')) : l = l' := by
  obtain ⟨up, hup⟩ := h.pointed hl'
  obtain ⟨n, hn, hstart⟩ := h.live hup
  rw [hl'] at hn
  cases hn
  rcases h.toward_leaf hl hup hstart.2 with heq | ⟨y, b, hb, -⟩
  · exact heq.symm
  · obtain ⟨pre, c, hnode, -⟩ := read_child_iff.mp hb
    rw [hl'] at hnode
    cases hnode

theorem binds_unique (h : Inv K g path) {k : List S} {v v' : V} (hb : g.Binds k v)
    (hb' : g.Binds k v') : v = v' := by
  obtain ⟨l, hl⟩ := hb
  obtain ⟨l', hl'⟩ := hb'
  rw [h.leaf_unique hl hl', hl'] at hl
  cases hl
  rfl

/-- An empty root pointer means an empty graph. -/
theorem node_eq_none (h : Inv K g path) (hroot : g.root = none) (x : A) : g.node x = none := by
  obtain ⟨m, hm⟩ : ∃ m, (path x).length = m := ⟨_, rfl⟩
  induction m using Nat.strongRecOn generalizing x with
  | ind m ih =>
    cases hx : g.node x with
    | none => rfl
    | some n =>
      obtain ⟨slot, hslot⟩ := h.pointed hx
      cases slot with
      | root =>
        rw [Graph.read, hroot] at hslot
        cases hslot
      | child a b =>
        obtain ⟨pre, c, hnode, -⟩ := read_child_iff.mp hslot
        rw [ih _ (hm ▸ h.path_lt_of_child hslot) a rfl] at hnode
        cases hnode

/-- Below every slot in use there is a leaf. -/
theorem exists_leaf (h : Inv K g path) {slot : Slot A S} {x : A} (hx : g.read slot = some x) :
    ∃ l k v, g.node l = some (.leaf k v) ∧ slot.start path <+: k ∧ path x <+: k := by
  obtain ⟨N, hN⟩ := h.bounded
  obtain ⟨m, hm⟩ : ∃ m, N - (path x).length = m := ⟨_, rfl⟩
  induction m using Nat.strongRecOn generalizing slot x with
  | ind m ih =>
    obtain ⟨n, hnode, hstart⟩ := h.live hx
    cases n with
    | leaf k v => exact ⟨x, k, v, hnode, hstart.2, hstart.1 ▸ List.prefix_rfl⟩
    | inner pre c =>
      obtain ⟨b, -, -, hb, -⟩ := h.branching hnode
      obtain ⟨y, hy⟩ := Option.isSome_iff_exists.mp hb
      have hread : g.read (.child x b) = some y := read_child_iff.mpr ⟨pre, c, hnode, hy⟩
      have hlt := h.path_lt_of_child hread
      obtain ⟨n', hn', -⟩ := h.live hread
      have hNx := hN hn'
      obtain ⟨l, k, v, hl, hk, -⟩ := ih _ (by omega) hread rfl
      have hxk : path x <+: k := (List.prefix_append _ _).trans hk
      exact ⟨l, k, v, hl, hstart.isPrefix.trans hxk, hxk⟩

end Inv

/-! ## 2. Below a node -/

/-- No path down from `x` has more than `n` nodes. -/
def HeightLE (g : Graph A S V) : Nat → A → Prop
  | 0, _ => False
  | n + 1, x => ∀ {pre c}, g.node x = some (.inner pre c) → ∀ {b y}, c b = some y → HeightLE g n y

theorem HeightLE.mono {g : Graph A S V} {n m : Nat} {x : A} (h : HeightLE g n x) (hnm : n ≤ m) :
    HeightLE g m x := by
  induction n generalizing m x with
  | zero => exact absurd h id
  | succ n ih =>
    cases m with
    | zero => omega
    | succ m =>
      intro pre c hnode b y hy
      exact ih (h hnode hy) (by omega)

namespace Inv

variable {K : Set (List S)} {g : Graph A S V} {path : A → List S}

/-- A node whose path goes on from that of an inner node is the node itself or lies below one of
    its children. -/
theorem below_child (h : Inv K g path) {x y : A} {pre : List S} {c : S → Option A} {n : Node A S V}
    (hx : g.node x = some (.inner pre c)) (hy : g.node y = some n) (hxy : path x <+: path y) :
    y = x ∨ ∃ b z, c b = some z ∧ path x ++ [b] <+: path y ∧ path z <+: path y := by
  obtain ⟨up, hup⟩ := h.pointed hx
  obtain ⟨up', hup'⟩ := h.pointed hy
  obtain ⟨i, hi⟩ := h.exists_way (k := path y) hup ((h.start_isPrefix hup).trans hxy)
  obtain ⟨j, hj⟩ := h.exists_way (k := path y) hup' (h.start_isPrefix hup')
  rcases Nat.lt_trichotomy i j with hlt | heq | hgt
  · right
    obtain ⟨z, hz⟩ := hi.exists_next hj hlt
    obtain ⟨b, hb, hstart⟩ := id hz
    obtain ⟨pre', c', hnode, hc⟩ := read_child_iff.mp hb
    rw [hx] at hnode
    cases hnode
    refine ⟨b, z, hc, hstart, ?_⟩
    -- `z` is the next node on the way to `y`, so it is `y` or above it.
    have hiz := Way.next hi hz
    rcases Nat.lt_or_eq_of_le hlt with hlt' | heq'
    · obtain ⟨_, _, -, hnext⟩ := hiz.exists_next hj hlt'
      exact (List.prefix_append _ _).trans hnext
    · have heq'' : i + 1 = j := heq'
      subst heq''
      rw [hiz.unique hj]
  · left
    subst heq
    exact (hi.unique hj).symm
  · have := h.way_path_lt hj hi hgt
    have := hxy.length_le
    omega

/-- Nothing but the leaf itself lies below a leaf. -/
theorem below_leaf (h : Inv K g path) {x y : A} {k : List S} {v : V} {n : Node A S V}
    (hx : g.node x = some (.leaf k v)) (hy : g.node y = some n) (hxy : path x <+: path y) :
    y = x := by
  obtain ⟨up, hup⟩ := h.pointed hx
  obtain ⟨up', hup'⟩ := h.pointed hy
  obtain ⟨i, hi⟩ := h.exists_way (k := path y) hup ((h.start_isPrefix hup).trans hxy)
  obtain ⟨j, hj⟩ := h.exists_way (k := path y) hup' (h.start_isPrefix hup')
  rcases Nat.lt_trichotomy i j with hlt | heq | hgt
  · obtain ⟨z, b, hb, -⟩ := hi.exists_next hj hlt
    obtain ⟨pre, c, hnode, -⟩ := read_child_iff.mp hb
    rw [hx] at hnode
    cases hnode
  · subst heq
    exact (hi.unique hj).symm
  · have := h.way_path_lt hj hi hgt
    have := hxy.length_le
    omega

/-- Every node lies below the root. -/
theorem below_root (h : Inv K g path) {x y : A} {n : Node A S V} (hx : g.root = some x)
    (hy : g.node y = some n) : path x <+: path y := by
  obtain ⟨up, hup⟩ := h.pointed hy
  obtain ⟨j, hj⟩ := h.exists_way (k := path y) hup (h.start_isPrefix hup)
  have hi : Way g path (path y) 0 x := .root hx
  rcases Nat.eq_zero_or_pos j with rfl | hpos
  · rw [hi.unique hj]
  · obtain ⟨_, _, -, hnext⟩ := hi.exists_next hj hpos
    exact (List.prefix_append _ _).trans hnext

/-- Paths down are no longer than the number of nodes. -/
theorem heightLE [DecidableEq A] (h : Inv K g path) {F : Finset A}
    (hF : ∀ {x n}, g.node x = some n → x ∈ F) {x : A} {n : Node A S V} (hx : g.node x = some n) :
    HeightLE g F.card x := by
  have hmeasure : ∀ m x n, g.node x = some n →
      (F.filter fun y => (path x).length ≤ (path y).length).card = m → HeightLE g m x := by
    intro m
    induction m using Nat.strongRecOn with
    | ind m ih =>
      intro x n hx hm
      have hpos : 0 < m := by
        rw [← hm, Finset.card_pos]
        exact ⟨x, Finset.mem_filter.mpr ⟨hF hx, Nat.le_refl _⟩⟩
      obtain ⟨m', rfl⟩ : ∃ m', m = m' + 1 := ⟨m - 1, by omega⟩
      intro pre c hnode b y hy
      have hread : g.read (.child x b) = some y := read_child_iff.mpr ⟨pre, c, hnode, hy⟩
      have hlt := h.path_lt_of_child hread
      obtain ⟨ny, hny, -⟩ := h.live hread
      have hcard : (F.filter fun z => (path y).length ≤ (path z).length).card < m' + 1 := by
        rw [← hm]
        refine Finset.card_lt_card (Finset.ssubset_iff_of_subset ?_ |>.mpr ⟨x, ?_, ?_⟩)
        · intro z hz
          rw [Finset.mem_filter] at hz ⊢
          exact ⟨hz.1, by omega⟩
        · exact Finset.mem_filter.mpr ⟨hF hx, Nat.le_refl _⟩
        · rw [Finset.mem_filter]
          omega
      exact (ih _ hcard y ny hny rfl).mono (by omega)
  exact (hmeasure _ x n hx rfl).mono (Finset.card_le_card (Finset.filter_subset _ _))

end Inv

/-! ## 3. Branching strings -/

/-- Two keys of the set go on from `w` with different symbols. -/
def Branching (K : Set (List S)) (w : List S) : Prop :=
  ∃ k ∈ K, ∃ k' ∈ K, ∃ b b', b ≠ b' ∧ w ++ [b] <+: k ∧ w ++ [b'] <+: k'

/-- A branching string is at most `m` symbols long, or starts with a shorter branching string and
    goes on from there for at most `m` symbols after the one that the keys differ in. -/
def Spaced (m : Nat) (K : Set (List S)) : Prop :=
  ∀ w, Branching K w → m < w.length →
    ∃ u, Branching K u ∧ u <+: w ∧ u.length < w.length ∧ w.length ≤ u.length + m + 1

/-- Two strings, neither a prefix of the other, part ways somewhere. -/
theorem exists_fork {k k' : List S} (h : ¬ k <+: k') (h' : ¬ k' <+: k) :
    ∃ w b b', b ≠ b' ∧ w ++ [b] <+: k ∧ w ++ [b'] <+: k' := by
  induction k generalizing k' with
  | nil => exact absurd List.nil_prefix h
  | cons x k ih =>
    cases k' with
    | nil => exact absurd List.nil_prefix h'
    | cons y k' =>
      by_cases hxy : x = y
      · subst hxy
        rw [List.prefix_cons_inj] at h h'
        obtain ⟨w, b, b', hbb, hw, hw'⟩ := ih h h'
        exact ⟨x :: w, b, b', hbb, (List.prefix_cons_inj x).mpr hw,
          (List.prefix_cons_inj x).mpr hw'⟩
      · exact ⟨[], x, y, hxy, ⟨k, rfl⟩, ⟨k', rfl⟩⟩

/-- A branching string that all keys below `s` pass is not far from `s`. -/
theorem Spaced.length_le {m : Nat} {K : Set (List S)} (h : Spaced m K) {s w : List S}
    (hw : Branching K w) (hs : s <+: w) (hall : ∀ k ∈ K, s <+: k → w <+: k) :
    w.length ≤ s.length + m := by
  by_contra hgt
  obtain ⟨u, ⟨k, hk, k', hk', b, b', hbb, hub, hub'⟩, huw, hlt, hle⟩ := h w hw (by omega)
  have hsu : s <+: u := List.prefix_of_prefix_length_le hs huw (by omega)
  have hwk : w <+: k := hall k hk ((hsu.trans (List.prefix_append _ _)).trans hub)
  have hwk' : w <+: k' := hall k' hk' ((hsu.trans (List.prefix_append _ _)).trans hub')
  have hlen : ∀ x : S, (u ++ [x]).length ≤ w.length := fun x => by
    rw [List.length_append, List.length_singleton]
    omega
  have h1 : u ++ [b] <+: w := List.prefix_of_prefix_length_le hub hwk (hlen b)
  have h2 : u ++ [b'] <+: w := List.prefix_of_prefix_length_le hub' hwk' (hlen b')
  exact hbb (snoc_inj_of_isPrefix h1 h2)

/-- Keys of at most `m + 1` symbols branch early enough. -/
theorem Spaced.of_length_le {m : Nat} {K : Set (List S)} (h : ∀ k ∈ K, k.length ≤ m + 1) :
    Spaced m K := by
  rintro w ⟨k, hk, -, -, b, -, -, hb, -⟩ hlt
  have h1 := hb.length_le
  have h2 := h k hk
  rw [List.length_append, List.length_singleton] at h1
  omega

/-! ## 4. Graphs that store the same map -/

section Same

variable {B : Type} {K K' : Set (List S)} {g : Graph A S V} {g' : Graph B S V} {path : A → List S}
  {path' : B → List S} {slot : Slot A S} {slot' : Slot B S} {x : A} {x' : B}

/-- An inner node branches right after its path. -/
theorem Inv.exists_two (h : Inv K g path) {pre : List S} {c : S → Option A}
    (hx : g.node x = some (.inner pre c)) :
    ∃ k v k' v' b b', g.Binds k v ∧ g.Binds k' v' ∧ b ≠ b' ∧ path x ++ [b] <+: k ∧
      path x ++ [b'] <+: k' := by
  obtain ⟨b, b', hbb, hb, hb'⟩ := h.branching hx
  obtain ⟨y, hy⟩ := Option.isSome_iff_exists.mp hb
  obtain ⟨y', hy'⟩ := Option.isSome_iff_exists.mp hb'
  obtain ⟨l, k, v, hl, hk, -⟩ := h.exists_leaf (read_child_iff.mpr ⟨pre, c, hx, hy⟩)
  obtain ⟨l', k', v', hl', hk', -⟩ := h.exists_leaf (read_child_iff.mpr ⟨pre, c, hx, hy'⟩)
  exact ⟨k, v, k', v', b, b', ⟨l, hl⟩, ⟨l', hl'⟩, hbb, hk, hk'⟩

/-- The keys below a slot that leads to an inner node go on to the children of that node. -/
theorem Inv.next_of_binds (h : Inv K g path) (hread : g.read slot = some x) {pre : List S}
    {c : S → Option A} (hx : g.node x = some (.inner pre c)) {k : List S} {v : V}
    (hb : g.Binds k v) (hs : slot.start path <+: k) :
    ∃ b y, c b = some y ∧ path x ++ [b] <+: k := by
  obtain ⟨l, hl⟩ := hb
  rcases h.toward_leaf hl hread hs with heq | ⟨y, b, hy, hnext⟩
  · rw [← heq, hx] at hl
    cases hl
  · obtain ⟨pre', c', hx', hy⟩ := read_child_iff.mp hy
    rw [hx] at hx'
    cases hx'
    exact ⟨b, y, hy, hnext⟩

/-- The only key below a slot that leads to a leaf is the key of the leaf. -/
theorem Inv.eq_of_leaf (h : Inv K g path) (hread : g.read slot = some x) {k : List S} {v : V}
    (hx : g.node x = some (.leaf k v)) {k' : List S} {v' : V} (hb : g.Binds k' v')
    (hs : slot.start path <+: k') : k' = k ∧ v' = v := by
  obtain ⟨l, hl⟩ := hb
  rcases h.toward_leaf hl hread hs with heq | ⟨y, b, hy, -⟩
  · rw [← heq, hx] at hl
    cases hl
    exact ⟨rfl, rfl⟩
  · obtain ⟨pre, c, hx', -⟩ := read_child_iff.mp hy
    rw [hx] at hx'
    cases hx'

/-- Two nodes look the same: equal leaves, or inner nodes with one prefix and the same keys. -/
def Alike : Node A S V → Node B S V → Prop
  | .leaf k v, .leaf k' v' => k = k' ∧ v = v'
  | .inner pre c, .inner pre' c' => pre = pre' ∧ ∀ b, (c b).isSome ↔ (c' b).isSome
  | _, _ => False

variable (h : Inv K g path) (h' : Inv K' g' path') (hsame : ∀ k v, g.Binds k v ↔ g'.Binds k v)
  (hread : g.read slot = some x) (hread' : g'.read slot' = some x')
  (hstart : slot.start path = slot'.start path')
include h h' hsame hread hread' hstart

/-- Below a leaf's slot there is no room for an inner node. -/
theorem Inv.not_inner_of_leaf {k : List S} {v : V} (hx : g.node x = some (.leaf k v))
    {pre : List S} {c : S → Option B} : g'.node x' ≠ some (.inner pre c) := by
  intro hx'
  obtain ⟨k1, v1, k2, v2, b, b', hk1, hk2, hbb, hb, hb'⟩ := h'.exists_two hx'
  have hbelow : ∀ {u w}, g'.Binds u w → path' x' <+: u → u = k := by
    intro u w hu hpath
    have hs : slot.start path <+: u := by
      rw [hstart]
      exact (h'.start_isPrefix hread').trans hpath
    exact (h.eq_of_leaf hread hx ((hsame u w).mpr hu) hs).1
  have h1 := hbelow hk1 ((List.prefix_append _ _).trans hb)
  have h2 := hbelow hk2 ((List.prefix_append _ _).trans hb')
  rw [h1] at hb
  rw [h2] at hb'
  exact hbb (snoc_inj_of_isPrefix hb hb')

/-- The path of the one inner node is not a part of the path of the other. -/
theorem Inv.path_length_le {pre pre' : List S} {c : S → Option A} {c' : S → Option B}
    (hx : g.node x = some (.inner pre c)) (hx' : g'.node x' = some (.inner pre' c')) :
    (path' x').length ≤ (path x).length := by
  by_contra hlt
  obtain ⟨k1, v1, k2, v2, b, b', hk1, hk2, hbb, hb, hb'⟩ := h.exists_two hx
  -- All keys below the slots start with the longer path, so they cannot branch before its end.
  have hbelow : ∀ {u w y}, g.Binds u w → path x ++ [y] <+: u → path x ++ [y] <+: path' x' := by
    intro u w y hu hy
    have hs : slot'.start path' <+: u := by
      rw [← hstart]
      exact ((h.start_isPrefix hread).trans (List.prefix_append _ _)).trans hy
    obtain ⟨z, -, -, hz⟩ := h'.next_of_binds hread' hx' ((hsame u w).mp hu) hs
    refine List.prefix_of_prefix_length_le hy ((List.prefix_append _ _).trans hz) ?_
    rw [List.length_append, List.length_singleton]
    omega
  exact hbb (snoc_inj_of_isPrefix (hbelow hk1 hb) (hbelow hk2 hb'))

/-- A child on one side means a child on the other. -/
theorem Inv.child_of_child {pre pre' : List S} {c : S → Option A} {c' : S → Option B}
    (hx : g.node x = some (.inner pre c)) (hx' : g'.node x' = some (.inner pre' c'))
    (hpath : path x = path' x') {b : S} (hb : (c b).isSome) : (c' b).isSome := by
  obtain ⟨y, hy⟩ := Option.isSome_iff_exists.mp hb
  obtain ⟨l, k, v, hl, hk, -⟩ := h.exists_leaf (read_child_iff.mpr ⟨pre, c, hx, hy⟩)
  rw [Slot.start_child] at hk
  have hs : slot'.start path' <+: k := by
    rw [← hstart]
    exact ((h.start_isPrefix hread).trans (List.prefix_append _ _)).trans hk
  obtain ⟨b', y', hy', hk'⟩ := h'.next_of_binds hread' hx' ((hsame k v).mp ⟨l, hl⟩) hs
  rw [← hpath] at hk'
  rw [snoc_inj_of_isPrefix hk hk', hy']
  rfl

end Same

/-- Slots up to which the same string is spelt lead to nodes that look the same. -/
theorem Inv.alike {B : Type} {K K' : Set (List S)} {g : Graph A S V} {g' : Graph B S V}
    {path : A → List S} {path' : B → List S} {slot : Slot A S} {slot' : Slot B S} {x : A} {x' : B}
    (h : Inv K g path) (h' : Inv K' g' path') (hsame : ∀ k v, g.Binds k v ↔ g'.Binds k v)
    (hread : g.read slot = some x) (hread' : g'.read slot' = some x')
    (hstart : slot.start path = slot'.start path') :
    path x = path' x' ∧
      ∃ n n', g.node x = some n ∧ g'.node x' = some n' ∧ Alike n n' := by
  obtain ⟨n, hn, hpath⟩ := h.live hread
  obtain ⟨n', hn', hpath'⟩ := h'.live hread'
  have hsame' : ∀ k v, g'.Binds k v ↔ g.Binds k v := fun k v => (hsame k v).symm
  cases n with
  | leaf k v =>
    cases n' with
    | leaf k' v' =>
      have hs : slot'.start path' <+: k := hstart ▸ hpath.2
      obtain ⟨rfl, rfl⟩ := h'.eq_of_leaf hread' hn' ((hsame k v).mp ⟨x, hn⟩) hs
      exact ⟨hpath.1.trans hpath'.1.symm, _, _, hn, hn', rfl, rfl⟩
    | inner pre' c' => exact absurd hn' (h.not_inner_of_leaf h' hsame hread hread' hstart hn)
  | inner pre c =>
    cases n' with
    | leaf k' v' =>
      exact absurd hn (h'.not_inner_of_leaf h hsame' hread' hread hstart.symm hn')
    | inner pre' c' =>
      have hlen := h.path_length_le h' hsame hread hread' hstart hn hn'
      have hlen' := h'.path_length_le h hsame' hread' hread hstart.symm hn' hn
      -- Both paths start a common key.
      obtain ⟨k, v, -, -, b, -, hk, -, -, hb, -⟩ := h.exists_two hn
      have hxk : path x <+: k := (List.prefix_append _ _).trans hb
      have hs : slot'.start path' <+: k := hstart ▸ (h.start_isPrefix hread).trans hxk
      obtain ⟨b', -, -, hb'⟩ := h'.next_of_binds hread' hn' ((hsame k v).mp hk) hs
      have heq : path x = path' x' := by
        refine (List.prefix_of_prefix_length_le hxk ((List.prefix_append _ _).trans hb')
          hlen').eq_of_length ?_
        omega
      refine ⟨heq, _, _, hn, hn', ?_, fun y => ⟨?_, ?_⟩⟩
      · have happ : slot.start path ++ pre = slot.start path ++ pre' := by
          rw [← show path x = slot.start path ++ pre from hpath, heq, hstart]
          exact hpath'
        exact List.append_cancel_left happ
      · exact h.child_of_child h' hsame hread hread' hstart hn hn' heq
      · exact h'.child_of_child h hsame' hread' hread hstart.symm hn' hn heq.symm

end Radix
