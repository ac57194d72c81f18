import Unodb.Util.Radix

/-!
# Updates of a radix tree graph

The local changes that insertion and removal make to a path-compressed radix tree, and that each of
them keeps the invariant: a first or last leaf at the root, a leaf added to or taken from an inner
node, an edge split by a new inner node, a node replaced by a copy, and an inner node with one child
left merged into that child.
-/

namespace Radix

variable {A S V : Type} [DecidableEq A] [DecidableEq S]

namespace Graph

/-- Put a node at an address, or take the one there away. -/
def set (g : Graph A S V) (a : A) (n : Option (Node A S V)) : Graph A S V :=
  { g with node := Function.update g.node a n }

/-- Redirect a slot. -/
def write (g : Graph A S V) : Slot A S → A → Graph A S V
  | .root, y => { g with root := some y }
  | .child a b, y =>
    match g.node a with
    | some (.inner pre c) => g.set a (some (.inner pre (Function.update c b (some y))))
    | _ => g

omit [DecidableEq S] in
theorem set_node (g : Graph A S V) (a : A) (n : Option (Node A S V)) (x : A) :
    (g.set a n).node x = if x = a then n else g.node x := by
  simp only [set, Function.update_apply]

omit [DecidableEq S] in
@[simp] theorem set_root (g : Graph A S V) (a : A) (n : Option (Node A S V)) :
    (g.set a n).root = g.root := rfl

omit [DecidableEq S] in
@[simp] theorem read_set_root (g : Graph A S V) (a : A) (n : Option (Node A S V)) :
    (g.set a n).read .root = g.read .root := rfl

omit [DecidableEq S] in
theorem read_set_child (g : Graph A S V) (a : A) (n : Option (Node A S V)) (a' : A) (b : S) :
    (g.set a n).read (.child a' b) = if a' = a then childOf n b else g.read (.child a' b) := by
  rw [read, set_node]
  split
  · rfl
  · rfl

end Graph

/-- Two nodes that differ in their children only. -/
def SameLabel : Node A S V → Node A S V → Prop
  | .leaf k v, .leaf k' v' => k = k' ∧ v = v'
  | .inner pre _, .inner pre' _ => pre = pre'
  | _, _ => False

omit [DecidableEq A] [DecidableEq S] in
theorem StartsAt.sameLabel {path : A → List S} {x : A} {n n' : Node A S V} {s : List S}
    (h : StartsAt path x n s) (hn : SameLabel n n') : StartsAt path x n' s := by
  cases n <;> cases n' <;> simp only [SameLabel] at hn
  · rw [← hn.1, ← hn.2]
    exact h
  · subst hn
    exact h

omit [DecidableEq A] [DecidableEq S] in
theorem SameLabel.refl (n : Node A S V) : SameLabel n n := by
  cases n <;> simp [SameLabel]

section Write

variable {g : Graph A S V} {slot : Slot A S} {y : A}

/-- Redirecting a slot in use changes the label of no node. -/
theorem write_node (g : Graph A S V) (slot : Slot A S) (z x : A) :
    (g.node x = none ∧ (g.write slot z).node x = none) ∨
    ∃ n n', g.node x = some n ∧ (g.write slot z).node x = some n' ∧ SameLabel n n' := by
  have hsame : (g.node x = none ∧ g.node x = none) ∨
      ∃ n n', g.node x = some n ∧ g.node x = some n' ∧ SameLabel n n' := by
    cases hx : g.node x with
    | none => exact .inl ⟨rfl, rfl⟩
    | some n => exact .inr ⟨n, n, rfl, rfl, SameLabel.refl n⟩
  cases slot with
  | root => exact hsame
  | child a b =>
    simp only [Graph.write]
    split
    · rename_i pre c hnode
      rw [Graph.set_node]
      by_cases hxa : x = a
      · subst hxa
        rw [if_pos rfl]
        exact .inr ⟨_, _, hnode, rfl, rfl⟩
      · rw [if_neg hxa]
        exact hsame
    · exact hsame

theorem write_node_eq_none_iff (g : Graph A S V) (slot : Slot A S) (z x : A) :
    (g.write slot z).node x = none ↔ g.node x = none := by
  rcases write_node g slot z x with ⟨h, h'⟩ | ⟨n, n', h, h', -⟩
  · rw [h, h']
  · rw [h, h']
    simp

theorem write_node_leaf_iff (g : Graph A S V) (slot : Slot A S) (z x : A) (k : List S) (v : V) :
    (g.write slot z).node x = some (.leaf k v) ↔ g.node x = some (.leaf k v) := by
  rcases write_node g slot z x with ⟨h, h'⟩ | ⟨n, n', h, h', hn⟩
  · rw [h, h']
  · rw [h, h']
    cases n <;> cases n' <;> simp only [SameLabel] at hn
    · rw [hn.1, hn.2]
    · simp

theorem read_write (hread : g.read slot = some y) (z : A) (slot' : Slot A S) (x : A) :
    (g.write slot z).read slot' = some x ↔
      (slot' = slot ∧ x = z) ∨ (slot' ≠ slot ∧ g.read slot' = some x) := by
  cases slot with
  | root =>
    cases slot' with
    | root => simp [Graph.write, Graph.read, eq_comm]
    | child a' b' => simp [Graph.write, Graph.read]
  | child a b =>
    obtain ⟨pre, c, hnode, hc⟩ := read_child_iff.mp hread
    simp only [Graph.write, hnode]
    cases slot' with
    | root => simp
    | child a' b' =>
      rw [Graph.read_set_child]
      by_cases ha : a' = a
      · subst ha
        rw [if_pos rfl, Graph.read, hnode]
        simp only [childOf]
        by_cases hb : b' = b
        · subst hb
          rw [Function.update_self]
          simp [eq_comm]
        · rw [Function.update_of_ne hb]
          simp [hb]
      · rw [if_neg ha]
        simp [ha]

end Write

/-! ## 1. Leaves added and removed -/

section Leaf

variable {K : Set (List S)} {g : Graph A S V} {path : A → List S}

omit [DecidableEq A] [DecidableEq S] in
/-- The empty graph. -/
theorem Inv.empty (hroot : g.root = none) (hnode : ∀ x, g.node x = none) : Inv K g path := by
  have hdead : ∀ {x n}, g.node x ≠ some n := by
    intro x n hn
    rw [hnode] at hn
    cases hn
  refine ⟨?_, fun hn => absurd hn hdead, fun hn => absurd hn hdead, fun hn => absurd hn hdead,
    ⟨0, fun hn => absurd hn hdead⟩⟩
  intro slot x hread
  cases slot with
  | root =>
    rw [Graph.read, hroot] at hread
    cases hread
  | child a b =>
    obtain ⟨pre, c, hn, -⟩ := read_child_iff.mp hread
    exact absurd hn hdead

omit [DecidableEq S] in
/-- The first leaf. -/
theorem Inv.insertRoot (h : Inv K g path) (hroot : g.root = none) {k : List S} (hk : k ∈ K)
    (v : V) (x : A) :
    Inv K { root := some x, node := Function.update g.node x (some (.leaf k v)) }
      (Function.update path x k) := by
  have hnone := h.node_eq_none hroot
  have hnode : ∀ {x' n}, Function.update g.node x (some (.leaf k v)) x' = some n →
      x' = x ∧ n = .leaf k v := by
    intro x' n hn
    rw [Function.update_apply] at hn
    split at hn
    · rename_i heq
      exact ⟨heq, (Option.some_inj.mp hn).symm⟩
    · rw [hnone] at hn
      cases hn
  refine ⟨?live, ?pointed, ?key_mem, ?branching, ?bounded⟩
  case live =>
    intro slot x' hread
    cases slot with
    | root =>
      cases hread
      exact ⟨_, Function.update_self .., Function.update_self .., List.nil_prefix⟩
    | child a b =>
      obtain ⟨pre, c, hn, -⟩ := read_child_iff.mp hread
      cases (hnode hn).2
  case pointed =>
    intro x' n hn
    rw [(hnode hn).1]
    exact ⟨.root, rfl⟩
  case key_mem =>
    intro x' k' v' hn
    cases (hnode hn).2
    exact hk
  case branching =>
    intro x' pre c hn
    cases (hnode hn).2
  case bounded =>
    refine ⟨k.length, ?_⟩
    intro x' n hn
    rw [(hnode hn).1, Function.update_self]

omit [DecidableEq S] in
/-- The last leaf. -/
theorem Inv.removeRoot (h : Inv K g path) {l : A} (hroot : g.root = some l) {k : List S} {v : V}
    (hl : g.node l = some (.leaf k v)) :
    Inv K { root := none, node := Function.update g.node l none } path ∧
      ∀ x, Function.update g.node l none x = none := by
  -- Any other node would hang below the root, which is a leaf.
  have hnone : ∀ x, Function.update g.node l none x = none := by
    intro x
    rw [Function.update_apply]
    split
    · rfl
    · rename_i hxl
      by_contra hne
      obtain ⟨n, hn⟩ := Option.ne_none_iff_exists'.mp hne
      obtain ⟨slot, hslot⟩ := h.pointed hn
      obtain ⟨i, hi⟩ := h.exists_way hslot (h.start_isPrefix hslot)
      have hpos : 0 < i := by
        rcases Nat.eq_zero_or_pos i with h0 | hpos
        · subst h0
          exact absurd (hi.unique (.root hroot)) hxl
        · exact hpos
      obtain ⟨y, b, hb, -⟩ := Way.exists_next (.root hroot) hi hpos
      obtain ⟨pre, c, hnode, -⟩ := read_child_iff.mp hb
      rw [hl] at hnode
      cases hnode
  exact ⟨Inv.empty rfl hnone, hnone⟩

variable {a : A} {pre : List S} {c : S → Option A} {b : S}

/-- A leaf added to an inner node. -/
theorem Inv.addLeaf (h : Inv K g path) (ha : g.node a = some (.inner pre c)) (hb : c b = none)
    {k : List S} (hk : k ∈ K) (hpre : path a ++ [b] <+: k) {x : A} (hx : g.node x = none) (v : V) :
    Inv K ((g.set x (some (.leaf k v))).set a (some (.inner pre (Function.update c b (some x)))))
      (Function.update path x k) := by
  have hax : a ≠ x := by
    rintro rfl
    rw [hx] at ha
    cases ha
  -- Old slots are as before and spell the same strings; one new slot leads to the new leaf.
  have hread : ∀ slot y, ((g.set x (some (.leaf k v))).set a
      (some (.inner pre (Function.update c b (some x))))).read slot = some y ↔
      (slot = .child a b ∧ y = x) ∨ g.read slot = some y := by
    intro slot y
    cases slot with
    | root => simp
    | child a' b' =>
      rw [Graph.read_set_child, Graph.read_set_child]
      by_cases haa : a' = a
      · subst haa
        rw [if_pos rfl, Graph.read, ha]
        simp only [childOf]
        by_cases hbb : b' = b
        · subst hbb
          rw [Function.update_self]
          simp [hb, eq_comm]
        · rw [Function.update_of_ne hbb]
          simp [hbb]
      · rw [if_neg haa]
        by_cases hax' : a' = x
        · subst hax'
          rw [if_pos rfl, Graph.read, hx]
          simp [childOf, haa]
        · rw [if_neg hax']
          simp [haa]
  have hnode : ∀ y, ((g.set x (some (.leaf k v))).set a
      (some (.inner pre (Function.update c b (some x))))).node y =
      if y = a then some (.inner pre (Function.update c b (some x)))
      else if y = x then some (.leaf k v) else g.node y := by
    intro y
    rw [Graph.set_node, Graph.set_node]
  have hstart : ∀ slot y, g.read slot = some y →
      slot.start (Function.update path x k) = slot.start path := by
    intro slot y hy
    cases slot with
    | root => rfl
    | child a' b' =>
      obtain ⟨pre', c', hn, -⟩ := read_child_iff.mp hy
      have : a' ≠ x := by
        rintro rfl
        rw [hx] at hn
        cases hn
      simp only [Slot.start, Function.update_of_ne this]
  refine ⟨?live, ?pointed, ?key_mem, ?branching, ?bounded⟩
  case live =>
    intro slot y hy
    rcases (hread slot y).mp hy with ⟨rfl, rfl⟩ | hold
    · refine ⟨.leaf k v, by rw [hnode, if_neg hax.symm, if_pos rfl], ?_, ?_⟩
      · rw [Function.update_self]
      · simp only [Slot.start, Function.update_of_ne hax]
        exact hpre
    · obtain ⟨n, hn, hs⟩ := h.live hold
      have hyx : y ≠ x := by
        rintro rfl
        rw [hx] at hn
        cases hn
      rw [hstart slot y hold]
      by_cases hya : y = a
      · subst hya
        rw [ha] at hn
        cases hn
        refine ⟨_, by rw [hnode, if_pos rfl], ?_⟩
        simp only [StartsAt, Function.update_of_ne hyx]
        exact hs
      · refine ⟨n, by rw [hnode, if_neg hya, if_neg hyx, hn], ?_⟩
        cases n <;> simp only [StartsAt, Function.update_of_ne hyx] <;> exact hs
  case pointed =>
    intro y n hn
    rw [hnode] at hn
    by_cases hya : y = a
    · subst hya
      obtain ⟨slot, hslot⟩ := h.pointed ha
      exact ⟨slot, (hread slot y).mpr (.inr hslot)⟩
    · rw [if_neg hya] at hn
      by_cases hyx : y = x
      · exact ⟨.child a b, (hread _ _).mpr (.inl ⟨rfl, hyx⟩)⟩
      · rw [if_neg hyx] at hn
        obtain ⟨slot, hslot⟩ := h.pointed hn
        exact ⟨slot, (hread slot y).mpr (.inr hslot)⟩
  case key_mem =>
    intro y k' v' hn
    rw [hnode] at hn
    split at hn
    · cases hn
    · split at hn
      · cases hn
        exact hk
      · exact h.key_mem hn
  case branching =>
    intro y pre' c' hn
    rw [hnode] at hn
    split at hn
    · cases hn
      obtain ⟨b1, b2, hne, h1, h2⟩ := h.branching ha
      refine ⟨b1, b2, hne, ?_, ?_⟩
      · rw [Function.update_apply]
        split
        · rfl
        · exact h1
      · rw [Function.update_apply]
        split
        · rfl
        · exact h2
    · split at hn
      · cases hn
      · exact h.branching hn
  case bounded =>
    obtain ⟨N, hN⟩ := h.bounded
    refine ⟨max N k.length, ?_⟩
    intro y n hn
    rw [hnode] at hn
    by_cases hyx : y = x
    · rw [hyx, Function.update_self]
      exact le_max_right ..
    · rw [Function.update_of_ne hyx]
      refine le_trans ?_ (le_max_left ..)
      split at hn
      · rename_i hya
        rw [hya]
        exact hN ha
      · exact hN hn

/-- A leaf taken from an inner node that keeps two children. -/
theorem Inv.removeLeaf (h : Inv K g path) (ha : g.node a = some (.inner pre c)) {l : A}
    (hb : c b = some l) {k : List S} {v : V} (hl : g.node l = some (.leaf k v))
    (hkeep : ∃ b1 b2, b1 ≠ b2 ∧ b1 ≠ b ∧ b2 ≠ b ∧ (c b1).isSome ∧ (c b2).isSome) :
    Inv K ((g.set l none).set a (some (.inner pre (Function.update c b none)))) path := by
  have hal : a ≠ l := by
    rintro rfl
    rw [hl] at ha
    cases ha
  have hslotl : g.read (.child a b) = some l := read_child_iff.mpr ⟨pre, c, ha, hb⟩
  have hread : ∀ slot y, ((g.set l none).set a
      (some (.inner pre (Function.update c b none)))).read slot = some y ↔
      slot ≠ .child a b ∧ g.read slot = some y := by
    intro slot y
    cases slot with
    | root => simp
    | child a' b' =>
      rw [Graph.read_set_child, Graph.read_set_child]
      by_cases haa : a' = a
      · subst haa
        rw [if_pos rfl, Graph.read, ha]
        simp only [childOf]
        by_cases hbb : b' = b
        · subst hbb
          rw [Function.update_self]
          simp
        · rw [Function.update_of_ne hbb]
          simp [hbb]
      · rw [if_neg haa]
        by_cases hal' : a' = l
        · subst hal'
          rw [if_pos rfl, Graph.read, hl]
          simp [childOf]
        · rw [if_neg hal']
          simp [haa]
  have hnode : ∀ y, ((g.set l none).set a (some (.inner pre (Function.update c b none)))).node y =
      if y = a then some (.inner pre (Function.update c b none))
      else if y = l then none else g.node y := by
    intro y
    rw [Graph.set_node, Graph.set_node]
  refine ⟨?live, ?pointed, ?key_mem, ?branching, ?bounded⟩
  case live =>
    intro slot y hy
    obtain ⟨hne, hold⟩ := (hread slot y).mp hy
    obtain ⟨n, hn, hs⟩ := h.live hold
    have hyl : y ≠ l := by
      rintro rfl
      exact hne (h.slot_unique hold hslotl)
    by_cases hya : y = a
    · subst hya
      rw [ha] at hn
      cases hn
      exact ⟨.inner pre (Function.update c b none), by rw [hnode, if_pos rfl], hs⟩
    · exact ⟨n, by rw [hnode, if_neg hya, if_neg hyl, hn], hs⟩
  case pointed =>
    intro y n hn
    rw [hnode] at hn
    have hold : ∃ n, g.node y = some n ∧ y ≠ l := by
      split at hn
      · rename_i hya
        exact ⟨_, by rw [hya, ha], by rw [hya]; exact hal⟩
      · split at hn
        · cases hn
        · rename_i hyl
          exact ⟨n, hn, hyl⟩
    obtain ⟨n', hn', hyl⟩ := hold
    obtain ⟨slot, hslot⟩ := h.pointed hn'
    refine ⟨slot, (hread slot y).mpr ⟨?_, hslot⟩⟩
    rintro rfl
    rw [hslotl] at hslot
    exact hyl (Option.some_inj.mp hslot).symm
  case key_mem =>
    intro y k' v' hn
    rw [hnode] at hn
    split at hn
    · cases hn
    · split at hn
      · cases hn
      · exact h.key_mem hn
  case branching =>
    intro y pre' c' hn
    rw [hnode] at hn
    split at hn
    · cases hn
      obtain ⟨b1, b2, hne, h1, h2, hs1, hs2⟩ := hkeep
      exact ⟨b1, b2, hne, by rwa [Function.update_of_ne h1], by rwa [Function.update_of_ne h2]⟩
    · split at hn
      · cases hn
      · exact h.branching hn
  case bounded =>
    obtain ⟨N, hN⟩ := h.bounded
    refine ⟨N, ?_⟩
    intro y n hn
    rw [hnode] at hn
    split at hn
    · rename_i hya
      rw [hya]
      exact hN ha
    · split at hn
      · cases hn
      · exact hN hn

end Leaf

/-! ## 2. Edges split, nodes replaced and merged -/

/-- Two nodes of one kind with the same children, and the same binding if they are leaves. -/
def SameKids : Node A S V → Node A S V → Prop
  | .leaf k v, .leaf k' v' => k = k' ∧ v = v'
  | .inner _ c, .inner _ c' => c = c'
  | _, _ => False

omit [DecidableEq A] [DecidableEq S] in
theorem SameKids.childOf {n n' : Node A S V} (h : SameKids n n') (b : S) :
    childOf (some n') b = childOf (some n) b := by
  cases n <;> cases n' <;> simp only [SameKids] at h
  · rfl
  · subst h
    rfl

section Restructure

variable {K : Set (List S)} {g : Graph A S V} {path : A → List S} {slot : Slot A S}

omit [DecidableEq A] [DecidableEq S] in
/-- A slot is not one of the node it leads to. -/
theorem Inv.slot_ne_child (h : Inv K g path) {y : A} (hslot : g.read slot = some y) (b : S) :
    slot ≠ .child y b := by
  rintro rfl
  exact absurd (h.path_lt_of_child hslot) (Nat.lt_irrefl _)

omit [DecidableEq A] [DecidableEq S] in
theorem slot_ne_of_dead {x y : A} (hslot : g.read slot = some y) (hx : g.node x = none) (b : S) :
    slot ≠ .child x b := by
  rintro rfl
  obtain ⟨pre, c, hn, -⟩ := read_child_iff.mp hslot
  rw [hx] at hn
  cases hn

omit [DecidableEq S] in
/-- Changing the path of a dead address changes the string of no slot in use. -/
theorem start_update_of_dead {x y : A} (hslot : g.read slot = some y) (hx : g.node x = none)
    (p : List S) : slot.start (Function.update path x p) = slot.start path := by
  cases slot with
  | root => rfl
  | child a b =>
    have hax : a ≠ x := by
      rintro rfl
      exact slot_ne_of_dead hslot hx b rfl
    simp only [Slot.start, Function.update_of_ne hax]

omit [DecidableEq S] in
theorem StartsAt.update_path {x y : A} {n : Node A S V} {s p : List S} (h : StartsAt path y n s)
    (hyx : y ≠ x) : StartsAt (Function.update path x p) y n s := by
  cases n <;> simp only [StartsAt, Function.update_of_ne hyx] <;> exact h

/-- Redirecting a slot in use keeps the branching of every inner node. -/
theorem write_branching (h : Inv K g path) {y z w : A} (hslot : g.read slot = some y)
    {pre' : List S} {c' : S → Option A}
    (hw : (g.write slot z).node w = some (.inner pre' c')) :
    ∃ b b', b ≠ b' ∧ (c' b).isSome ∧ (c' b').isSome := by
  have hkid : ∀ b w', g.read (.child w b) = some w' → (c' b).isSome := by
    intro b w' hw'
    by_cases hs : Slot.child w b = slot
    · have hz : (g.write slot z).read (.child w b) = some z :=
        (read_write hslot z _ _).mpr (.inl ⟨hs, rfl⟩)
      rw [Graph.read, hw] at hz
      exact Option.isSome_iff_exists.mpr ⟨z, hz⟩
    · have hw'' : (g.write slot z).read (.child w b) = some w' :=
        (read_write hslot z _ _).mpr (.inr ⟨hs, hw'⟩)
      rw [Graph.read, hw] at hw''
      exact Option.isSome_iff_exists.mpr ⟨w', hw''⟩
  rcases write_node g slot z w with ⟨-, hnone⟩ | ⟨m1, m2, hm1, hm2, hlab⟩
  · rw [hw] at hnone
    cases hnone
  · rw [hw] at hm2
    cases hm2
    cases m1 with
    | leaf k0 v0 => exact absurd hlab (by simp [SameLabel])
    | inner pre c =>
      obtain ⟨b1, b2, hb12, h1, h2⟩ := h.branching hm1
      obtain ⟨w1, hw1⟩ := Option.isSome_iff_exists.mp h1
      obtain ⟨w2, hw2⟩ := Option.isSome_iff_exists.mp h2
      exact ⟨b1, b2, hb12, hkid b1 w1 (read_child_iff.mpr ⟨pre, c, hm1, hw1⟩),
        hkid b2 w2 (read_child_iff.mpr ⟨pre, c, hm1, hw2⟩)⟩

/-- The graph after a new inner node `z` with prefix `Q` was put on the edge at `slot` to `y`,
    with a new leaf `x` beside `y`. -/
def Graph.split (g : Graph A S V) (slot : Slot A S) (z : A) (Q : List S) (bo : S) (y : A)
    (n' : Node A S V) (bn : S) (x : A) (k : List S) (v : V) : Graph A S V :=
  (((g.write slot z).set z (some (.inner Q
    (Function.update (Function.update (fun _ => none) bo (some y)) bn (some x))))).set x
      (some (.leaf k v))).set y (some n')

section Split

variable {y z x : A} {n n' : Node A S V} {Q k : List S} {bo bn : S} {v : V}

theorem read_split (h : Inv K g path) (hslot : g.read slot = some y) (hy : g.node y = some n)
    (hz : g.node z = none) (hx : g.node x = none) (hzx : z ≠ x) (hkids : SameKids n n')
    (hne : bo ≠ bn) (slot' : Slot A S) (w : A) :
    (g.split slot z Q bo y n' bn x k v).read slot' = some w ↔
      (slot' = slot ∧ w = z) ∨ (slot' = .child z bo ∧ w = y) ∨ (slot' = .child z bn ∧ w = x) ∨
      (slot' ≠ slot ∧ g.read slot' = some w) := by
  have hyz : y ≠ z := by
    rintro rfl
    rw [hz] at hy
    cases hy
  have hyx : y ≠ x := by
    rintro rfl
    rw [hx] at hy
    cases hy
  rw [Graph.split]
  cases slot' with
  | root =>
    rw [Graph.read_set_root, Graph.read_set_root, Graph.read_set_root, read_write hslot]
    simp
  | child a b =>
    rw [Graph.read_set_child]
    by_cases hay : a = y
    · subst hay
      have hns := (h.slot_ne_child hslot b).symm
      rw [if_pos rfl, hkids.childOf, ← hy]
      simp [hyz, hns, Graph.read]
    · rw [if_neg hay, Graph.read_set_child]
      by_cases hax : a = x
      · subst hax
        have hns := (slot_ne_of_dead hslot hx b).symm
        rw [if_pos rfl]
        simp [childOf, hns, hzx.symm, Graph.read, hx]
      · rw [if_neg hax, Graph.read_set_child]
        by_cases haz : a = z
        · subst haz
          have hns := (slot_ne_of_dead hslot hz b).symm
          rw [if_pos rfl]
          simp only [childOf]
          by_cases hbx : b = bn
          · subst hbx
            rw [Function.update_self]
            simp [hns, hne, Graph.read, hz, childOf, eq_comm]
          · rw [Function.update_of_ne hbx]
            by_cases hby : b = bo
            · subst hby
              rw [Function.update_self]
              simp [hns, hne.symm, Graph.read, hz, childOf, eq_comm]
            · rw [Function.update_of_ne hby]
              simp [hns, hbx, hby, Graph.read, hz, childOf]
        · rw [if_neg haz, read_write hslot]
          simp [haz]

theorem split_node (w : A) :
    (g.split slot z Q bo y n' bn x k v).node w =
      if w = y then some n' else if w = x then some (.leaf k v) else if w = z then
        some (.inner Q (Function.update (Function.update (fun _ => none) bo (some y)) bn (some x)))
      else (g.write slot z).node w := by
  rw [Graph.split, Graph.set_node, Graph.set_node, Graph.set_node]

/-- An edge split by a new inner node with a new leaf. -/
theorem Inv.split (h : Inv K g path) (hslot : g.read slot = some y) (hy : g.node y = some n)
    (hz : g.node z = none) (hx : g.node x = none) (hzx : z ≠ x) (hkids : SameKids n n')
    (hne : bo ≠ bn) (hfit : StartsAt path y n' (slot.start path ++ Q ++ [bo])) (hk : k ∈ K)
    (hpre : slot.start path ++ Q ++ [bn] <+: k) (v : V) :
    Inv K (g.split slot z Q bo y n' bn x k v)
      (Function.update (Function.update path x k) z (slot.start path ++ Q)) := by
  have hyz : y ≠ z := by
    rintro rfl
    rw [hz] at hy
    cases hy
  have hyx : y ≠ x := by
    rintro rfl
    rw [hx] at hy
    cases hy
  have hread := read_split (Q := Q) (k := k) (v := v) h hslot hy hz hx hzx hkids hne
  have hstart : ∀ {slot' w}, g.read slot' = some w → slot'.start
      (Function.update (Function.update path x k) z (slot.start path ++ Q)) =
        slot'.start path := by
    intro slot' w hw
    rw [start_update_of_dead hw hz, start_update_of_dead hw hx]
  have hpathz : Function.update (Function.update path x k) z (slot.start path ++ Q) z =
      slot.start path ++ Q := Function.update_self ..
  refine ⟨?live, ?pointed, ?key_mem, ?branching, ?bounded⟩
  case live =>
    intro slot' w hw
    rcases (hread slot' w).mp hw with ⟨rfl, rfl⟩ | ⟨rfl, rfl⟩ | ⟨rfl, rfl⟩ | ⟨hns, hold⟩
    · refine ⟨_, by rw [split_node, if_neg hyz.symm, if_neg hzx, if_pos rfl], ?_⟩
      rw [hstart hslot]
      exact hpathz
    · refine ⟨n', by rw [split_node, if_pos rfl], ?_⟩
      rw [Slot.start_child, hpathz]
      exact (hfit.update_path hyx).update_path hyz
    · refine ⟨.leaf k v, by rw [split_node, if_neg hyx.symm, if_pos rfl], ?_, ?_⟩
      · rw [Function.update_of_ne hzx.symm, Function.update_self]
      · rw [Slot.start_child, hpathz]
        exact hpre
    · obtain ⟨m, hm, hs⟩ := h.live hold
      have hwy : w ≠ y := by
        rintro rfl
        exact hns (h.slot_unique hold hslot)
      have hwz : w ≠ z := by
        rintro rfl
        rw [hz] at hm
        cases hm
      have hwx : w ≠ x := by
        rintro rfl
        rw [hx] at hm
        cases hm
      rw [hstart hold]
      rcases write_node g slot z w with ⟨hnone, -⟩ | ⟨m1, m2, hm1, hm2, hlab⟩
      · rw [hm] at hnone
        cases hnone
      · rw [hm] at hm1
        cases hm1
        refine ⟨m2, by rw [split_node, if_neg hwy, if_neg hwx, if_neg hwz, hm2], ?_⟩
        exact ((hs.sameLabel hlab).update_path hwx).update_path hwz
  case pointed =>
    intro w m hm
    by_cases hwy : w = y
    · exact ⟨.child z bo, (hread _ _).mpr (.inr (.inl ⟨rfl, hwy⟩))⟩
    · by_cases hwx : w = x
      · exact ⟨.child z bn, (hread _ _).mpr (.inr (.inr (.inl ⟨rfl, hwx⟩)))⟩
      · by_cases hwz : w = z
        · exact ⟨slot, (hread _ _).mpr (.inl ⟨rfl, hwz⟩)⟩
        · rw [split_node, if_neg hwy, if_neg hwx, if_neg hwz] at hm
          have hold : g.node w ≠ none := by
            rw [Ne, ← write_node_eq_none_iff g slot z w, hm]
            simp
          obtain ⟨m', hm'⟩ := Option.ne_none_iff_exists'.mp hold
          obtain ⟨slot', hslot'⟩ := h.pointed hm'
          refine ⟨slot', (hread _ _).mpr (.inr (.inr (.inr ⟨?_, hslot'⟩)))⟩
          rintro rfl
          rw [hslot, Option.some_inj] at hslot'
          exact hwy hslot'.symm
  case key_mem =>
    intro w k' v' hm
    rw [split_node] at hm
    split at hm
    · cases hm
      cases n with
      | leaf k0 v0 =>
        simp only [SameKids] at hkids
        rw [← hkids.1]
        exact h.key_mem hy
      | inner pre c => exact absurd hkids (by simp [SameKids])
    · split at hm
      · cases hm
        exact hk
      · split at hm
        · cases hm
        · rw [write_node_leaf_iff] at hm
          exact h.key_mem hm
  case branching =>
    intro w pre' c' hm
    rw [split_node] at hm
    split at hm
    · cases hm
      cases n with
      | leaf k0 v0 => exact absurd hkids (by simp [SameKids])
      | inner pre c =>
        simp only [SameKids] at hkids
        subst hkids
        exact h.branching hy
    · split at hm
      · cases hm
      · split at hm
        · cases hm
          refine ⟨bo, bn, hne, ?_, ?_⟩
          · rw [Function.update_of_ne hne, Function.update_self]
            rfl
          · rw [Function.update_self]
            rfl
        · exact write_branching h hslot hm
  case bounded =>
    obtain ⟨N, hN⟩ := h.bounded
    refine ⟨N + k.length + (slot.start path ++ Q).length, ?_⟩
    intro w m hm
    by_cases hwz : w = z
    · rw [hwz, hpathz]
      omega
    · rw [Function.update_of_ne hwz]
      by_cases hwx : w = x
      · rw [hwx, Function.update_self]
        omega
      · rw [Function.update_of_ne hwx]
        have hold : ∃ m', g.node w = some m' := by
          by_cases hwy : w = y
          · exact ⟨n, by rw [hwy, hy]⟩
          · rw [split_node, if_neg hwy, if_neg hwx, if_neg hwz] at hm
            apply Option.ne_none_iff_exists'.mp
            rw [Ne, ← write_node_eq_none_iff g slot z w, hm]
            simp
        obtain ⟨m', hm'⟩ := hold
        have := hN hm'
        omega

end Split

section Replace

variable {a a' : A} {n : Node A S V}

/-- The graph after the node that `slot` leads to was moved to a new address. -/
def Graph.replace (g : Graph A S V) (slot : Slot A S) (a a' : A) (n : Node A S V) : Graph A S V :=
  ((g.write slot a').set a none).set a' (some n)

theorem replace_node (w : A) :
    (g.replace slot a a' n).node w =
      if w = a' then some n else if w = a then none else (g.write slot a').node w := by
  rw [Graph.replace, Graph.set_node, Graph.set_node]

theorem read_replace (h : Inv K g path) (hslot : g.read slot = some a) (ha : g.node a = some n)
    (ha' : g.node a' = none) (slot' : Slot A S) (w : A) :
    (g.replace slot a a' n).read slot' = some w ↔
      (slot' = slot ∧ w = a') ∨ (∃ b, slot' = .child a' b ∧ g.read (.child a b) = some w) ∨
      (slot' ≠ slot ∧ (∀ b, slot' ≠ .child a b) ∧ g.read slot' = some w) := by
  have haa : a ≠ a' := by
    rintro rfl
    rw [ha'] at ha
    cases ha
  rw [Graph.replace]
  cases slot' with
  | root =>
    rw [Graph.read_set_root, Graph.read_set_root, read_write hslot]
    simp
  | child x b =>
    rw [Graph.read_set_child]
    by_cases hxa' : x = a'
    · subst hxa'
      have hns := (slot_ne_of_dead hslot ha' b).symm
      rw [if_pos rfl]
      simp [hns, haa.symm, Graph.read, ha', ha, childOf]
    · rw [if_neg hxa', Graph.read_set_child]
      by_cases hxa : x = a
      · subst hxa
        have hns := (h.slot_ne_child hslot b).symm
        rw [if_pos rfl]
        simp [childOf, hns, haa]
      · rw [if_neg hxa, read_write hslot]
        simp [hxa, hxa']

/-- A node moved to a new address. -/
theorem Inv.replace (h : Inv K g path) (hslot : g.read slot = some a) (ha : g.node a = some n)
    (ha' : g.node a' = none) :
    Inv K (g.replace slot a a' n) (Function.update path a' (path a)) := by
  have haa : a ≠ a' := by
    rintro rfl
    rw [ha'] at ha
    cases ha
  have hread := read_replace h hslot ha ha'
  have hlive : ∀ {w m}, (g.replace slot a a' n).node w = some m → w = a' ∨
      w ≠ a' ∧ w ≠ a ∧ (g.write slot a').node w = some m := by
    intro w m hm
    rw [replace_node] at hm
    by_cases hwa' : w = a'
    · exact .inl hwa'
    · rw [if_neg hwa'] at hm
      by_cases hwa : w = a
      · rw [if_pos hwa] at hm
        cases hm
      · rw [if_neg hwa] at hm
        exact .inr ⟨hwa', hwa, hm⟩
  refine ⟨?live, ?pointed, ?key_mem, ?branching, ?bounded⟩
  case live =>
    intro slot' w hw
    rcases (hread slot' w).mp hw with ⟨rfl, rfl⟩ | ⟨b, rfl, hold⟩ | ⟨hns, hna, hold⟩
    · obtain ⟨m, hm, hs⟩ := h.live hslot
      rw [ha] at hm
      cases hm
      refine ⟨n, by rw [replace_node, if_pos rfl], ?_⟩
      rw [start_update_of_dead hslot ha']
      cases n <;> simp only [StartsAt, Function.update_self] <;> exact hs
    · obtain ⟨m, hm, hs⟩ := h.live hold
      have hwa' : w ≠ a' := by
        rintro rfl
        rw [ha'] at hm
        cases hm
      have hwa : w ≠ a := by
        rintro rfl
        exact h.slot_ne_child hold b rfl
      rcases write_node g slot a' w with ⟨hnone, -⟩ | ⟨m1, m2, hm1, hm2, hlab⟩
      · rw [hm] at hnone
        cases hnone
      · rw [hm] at hm1
        cases hm1
        refine ⟨m2, by rw [replace_node, if_neg hwa', if_neg hwa, hm2], ?_⟩
        rw [Slot.start_child, Function.update_self]
        exact (hs.sameLabel hlab).update_path hwa'
    · obtain ⟨m, hm, hs⟩ := h.live hold
      have hwa' : w ≠ a' := by
        rintro rfl
        rw [ha'] at hm
        cases hm
      have hwa : w ≠ a := by
        rintro rfl
        exact hns (h.slot_unique hold hslot)
      rcases write_node g slot a' w with ⟨hnone, -⟩ | ⟨m1, m2, hm1, hm2, hlab⟩
      · rw [hm] at hnone
        cases hnone
      · rw [hm] at hm1
        cases hm1
        refine ⟨m2, by rw [replace_node, if_neg hwa', if_neg hwa, hm2], ?_⟩
        rw [start_update_of_dead hold ha']
        exact (hs.sameLabel hlab).update_path hwa'
  case pointed =>
    intro w m hm
    rcases hlive hm with rfl | ⟨hwa', hwa, hm'⟩
    · exact ⟨slot, (hread _ _).mpr (.inl ⟨rfl, rfl⟩)⟩
    · have hold : g.node w ≠ none := by
        rw [Ne, ← write_node_eq_none_iff g slot a' w, hm']
        simp
      obtain ⟨m', hm'⟩ := Option.ne_none_iff_exists'.mp hold
      obtain ⟨slot', hslot'⟩ := h.pointed hm'
      have hns : slot' ≠ slot := by
        rintro rfl
        rw [hslot, Option.some_inj] at hslot'
        exact hwa hslot'.symm
      by_cases hkid : ∃ b, slot' = .child a b
      · obtain ⟨b, rfl⟩ := hkid
        exact ⟨.child a' b, (hread _ _).mpr (.inr (.inl ⟨b, rfl, hslot'⟩))⟩
      · exact ⟨slot', (hread _ _).mpr (.inr (.inr ⟨hns, fun b hb => hkid ⟨b, hb⟩, hslot'⟩))⟩
  case key_mem =>
    intro w k v hm
    rcases hlive hm with rfl | ⟨hwa', hwa, hm'⟩
    · rw [replace_node, if_pos rfl, Option.some_inj] at hm
      subst hm
      exact h.key_mem ha
    · rw [write_node_leaf_iff] at hm'
      exact h.key_mem hm'
  case branching =>
    intro w pre c hm
    rcases hlive hm with rfl | ⟨hwa', hwa, hm'⟩
    · rw [replace_node, if_pos rfl, Option.some_inj] at hm
      subst hm
      exact h.branching ha
    · exact write_branching h hslot hm'
  case bounded =>
    obtain ⟨N, hN⟩ := h.bounded
    refine ⟨N, ?_⟩
    intro w m hm
    rcases hlive hm with rfl | ⟨hwa', hwa, hm'⟩
    · rw [Function.update_self]
      exact hN ha
    · rw [Function.update_of_ne hwa']
      have hold : g.node w ≠ none := by
        rw [Ne, ← write_node_eq_none_iff g slot a' w, hm']
        simp
      obtain ⟨m', hm'⟩ := Option.ne_none_iff_exists'.mp hold
      exact hN hm'

end Replace

section Merge

variable {a l y : A} {pre k : List S} {c : S → Option A} {b b' : S} {v : V} {n n' : Node A S V}

/-- The graph after the node `a` and its leaf child `l` were taken away and the slot to `a` leads
    to the other child `y`, which becomes `n'`. -/
def Graph.merge (g : Graph A S V) (slot : Slot A S) (a l y : A) (n' : Node A S V) :
    Graph A S V :=
  (((g.write slot y).set a none).set l none).set y (some n')

theorem merge_node (w : A) :
    (g.merge slot a l y n').node w = if w = y then some n' else if w = l then none
      else if w = a then none else (g.write slot y).node w := by
  rw [Graph.merge, Graph.set_node, Graph.set_node, Graph.set_node]

theorem read_merge (h : Inv K g path) (hslot : g.read slot = some a)
    (ha : g.node a = some (.inner pre c)) (hl : g.node l = some (.leaf k v)) (hb' : c b' = some y)
    (hy : g.node y = some n) (hkids : SameKids n n') (slot' : Slot A S) (w : A) :
    (g.merge slot a l y n').read slot' = some w ↔
      (slot' = slot ∧ w = y) ∨
      (slot' ≠ slot ∧ (∀ b0, slot' ≠ .child a b0) ∧ g.read slot' = some w) := by
  have hslot' : g.read (.child a b') = some y := read_child_iff.mpr ⟨pre, c, ha, hb'⟩
  have hay : a ≠ y := by
    rintro rfl
    exact h.slot_ne_child hslot' b' rfl
  rw [Graph.merge]
  cases slot' with
  | root =>
    rw [Graph.read_set_root, Graph.read_set_root, Graph.read_set_root, read_write hslot]
    simp
  | child x b0 =>
    rw [Graph.read_set_child]
    by_cases hxy : x = y
    · subst hxy
      have hns : Slot.child x b0 ≠ slot := by
        rintro rfl
        have h1 := h.path_lt_of_child hslot
        have h2 := h.path_lt_of_child hslot'
        omega
      rw [if_pos rfl, hkids.childOf, ← hy]
      simp [hns, hay.symm, Graph.read]
    · rw [if_neg hxy, Graph.read_set_child]
      by_cases hxl : x = l
      · subst hxl
        have hns : Slot.child x b0 ≠ slot := by
          rintro rfl
          obtain ⟨pre', c', hn, -⟩ := read_child_iff.mp hslot
          rw [hl] at hn
          cases hn
        rw [if_pos rfl]
        simp [childOf, hns, Graph.read, hl]
      · rw [if_neg hxl, Graph.read_set_child]
        by_cases hxa : x = a
        · subst hxa
          have hns := (h.slot_ne_child hslot b0).symm
          rw [if_pos rfl]
          simp [childOf, hns]
        · rw [if_neg hxa, read_write hslot]
          simp [hxa]

/-- A two-child node merged into the child that stays. -/
theorem Inv.merge (h : Inv K g path) (hslot : g.read slot = some a)
    (ha : g.node a = some (.inner pre c)) (hb : c b = some l) (hl : g.node l = some (.leaf k v))
    (hb' : c b' = some y) (hbb : b' ≠ b) (honly : ∀ x, (c x).isSome → x = b ∨ x = b')
    (hy : g.node y = some n) (hkids : SameKids n n') (hfit : StartsAt path y n' (slot.start path)) :
    Inv K (g.merge slot a l y n') path := by
  have hslotl : g.read (.child a b) = some l := read_child_iff.mpr ⟨pre, c, ha, hb⟩
  have hsloty : g.read (.child a b') = some y := read_child_iff.mpr ⟨pre, c, ha, hb'⟩
  have hyl : y ≠ l := by
    rintro rfl
    have := h.slot_unique hslotl hsloty
    simp only [Slot.child.injEq, true_and] at this
    exact hbb this.symm
  have hread := read_merge h hslot ha hl hb' hy hkids
  have hlive : ∀ {w m}, (g.merge slot a l y n').node w = some m → w = y ∨
      w ≠ y ∧ w ≠ l ∧ w ≠ a ∧ (g.write slot y).node w = some m := by
    intro w m hm
    rw [merge_node] at hm
    by_cases hwy : w = y
    · exact .inl hwy
    · rw [if_neg hwy] at hm
      by_cases hwl : w = l
      · rw [if_pos hwl] at hm
        cases hm
      · rw [if_neg hwl] at hm
        by_cases hwa : w = a
        · rw [if_pos hwa] at hm
          cases hm
        · rw [if_neg hwa] at hm
          exact .inr ⟨hwy, hwl, hwa, hm⟩
  refine ⟨?live, ?pointed, ?key_mem, ?branching, ?bounded⟩
  case live =>
    intro slot' w hw
    rcases (hread slot' w).mp hw with ⟨rfl, rfl⟩ | ⟨hns, hna, hold⟩
    · exact ⟨n', by rw [merge_node, if_pos rfl], hfit⟩
    · obtain ⟨m, hm, hs⟩ := h.live hold
      have hwy : w ≠ y := by
        rintro rfl
        exact hna b' (h.slot_unique hold hsloty)
      have hwl : w ≠ l := by
        rintro rfl
        exact hna b (h.slot_unique hold hslotl)
      have hwa : w ≠ a := by
        rintro rfl
        exact hns (h.slot_unique hold hslot)
      rcases write_node g slot y w with ⟨hnone, -⟩ | ⟨m1, m2, hm1, hm2, hlab⟩
      · rw [hm] at hnone
        cases hnone
      · rw [hm] at hm1
        cases hm1
        exact ⟨m2, by rw [merge_node, if_neg hwy, if_neg hwl, if_neg hwa, hm2], hs.sameLabel hlab⟩
  case pointed =>
    intro w m hm
    rcases hlive hm with rfl | ⟨hwy, hwl, hwa, hm'⟩
    · exact ⟨slot, (hread _ _).mpr (.inl ⟨rfl, rfl⟩)⟩
    · have hold : g.node w ≠ none := by
        rw [Ne, ← write_node_eq_none_iff g slot y w, hm']
        simp
      obtain ⟨m', hm'⟩ := Option.ne_none_iff_exists'.mp hold
      obtain ⟨slot', hslot'⟩ := h.pointed hm'
      refine ⟨slot', (hread _ _).mpr (.inr ⟨?_, ?_, hslot'⟩)⟩
      · rintro rfl
        rw [hslot, Option.some_inj] at hslot'
        exact hwa hslot'.symm
      · rintro b0 rfl
        obtain ⟨pre0, c0, hn0, hc0⟩ := read_child_iff.mp hslot'
        rw [ha] at hn0
        cases hn0
        rcases honly b0 (by rw [hc0]; rfl) with rfl | rfl
        · rw [hb, Option.some_inj] at hc0
          exact hwl hc0.symm
        · rw [hb', Option.some_inj] at hc0
          exact hwy hc0.symm
  case key_mem =>
    intro w k' v' hm
    rcases hlive hm with rfl | ⟨hwy, hwl, hwa, hm'⟩
    · rw [merge_node, if_pos rfl, Option.some_inj] at hm
      subst hm
      cases n with
      | leaf k0 v0 =>
        simp only [SameKids] at hkids
        rw [← hkids.1]
        exact h.key_mem hy
      | inner pre0 c0 => exact absurd hkids (by simp [SameKids])
    · rw [write_node_leaf_iff] at hm'
      exact h.key_mem hm'
  case branching =>
    intro w pre' c' hm
    rcases hlive hm with rfl | ⟨hwy, hwl, hwa, hm'⟩
    · rw [merge_node, if_pos rfl, Option.some_inj] at hm
      subst hm
      cases n with
      | leaf k0 v0 => exact absurd hkids (by simp [SameKids])
      | inner pre0 c0 =>
        simp only [SameKids] at hkids
        subst hkids
        exact h.branching hy
    · exact write_branching h hslot hm'
  case bounded =>
    obtain ⟨N, hN⟩ := h.bounded
    refine ⟨N, ?_⟩
    intro w m hm
    rcases hlive hm with rfl | ⟨hwy, hwl, hwa, hm'⟩
    · exact hN hy
    · have hold : g.node w ≠ none := by
        rw [Ne, ← write_node_eq_none_iff g slot y w, hm']
        simp
      obtain ⟨m', hm'⟩ := Option.ne_none_iff_exists'.mp hold
      exact hN hm'

end Merge

/-! ## 3. A node replaced by one with another child map -/

section Exchange

variable {a a' : A} {pre : List S} {c : S → Option A} {b : S}

omit [DecidableEq S] in
theorem set_comm (g : Graph A S V) {x y : A} (hxy : x ≠ y) (n m : Option (Node A S V)) :
    (g.set x n).set y m = (g.set y m).set x n := by
  simp only [Graph.set, Function.update_comm hxy]

omit [DecidableEq S] in
theorem set_set (g : Graph A S V) (x : A) (n m : Option (Node A S V)) :
    (g.set x n).set x m = g.set x m := by
  simp only [Graph.set, Function.update_idem]

theorem write_set_comm (g : Graph A S V) {x : A} (hslot : ∀ b, slot ≠ .child x b)
    (n : Option (Node A S V)) (z : A) : (g.set x n).write slot z = (g.write slot z).set x n := by
  cases slot with
  | root => rfl
  | child y b =>
    have hyx : y ≠ x := by
      rintro rfl
      exact hslot b rfl
    simp only [Graph.write, Graph.set_node, if_neg hyx]
    split
    · rw [set_comm _ hyx.symm]
    · rfl

/-- A node moved to a new address with a new leaf among its children. -/
theorem Inv.growLeaf (h : Inv K g path) (hslot : g.read slot = some a)
    (ha : g.node a = some (.inner pre c)) (hb : c b = none) {k : List S} (hk : k ∈ K)
    (hpre : path a ++ [b] <+: k) {x : A} (hx : g.node x = none) (ha' : g.node a' = none)
    (hxa' : x ≠ a') (v : V) :
    Inv K ((((g.write slot a').set a none).set a'
        (some (.inner pre (Function.update c b (some x))))).set x (some (.leaf k v)))
      (Function.update (Function.update path x k) a' (path a)) := by
  have hax : a ≠ x := by
    rintro rfl
    rw [hx] at ha
    cases ha
  have haa' : a ≠ a' := by
    rintro rfl
    rw [ha'] at ha
    cases ha
  have hadd := h.addLeaf ha hb hk hpre hx v
  have hslot1 : ((g.set x (some (.leaf k v))).set a
      (some (.inner pre (Function.update c b (some x))))).read slot = some a := by
    cases slot with
    | root => exact hslot
    | child y b0 =>
      have hya : y ≠ a := by
        rintro rfl
        exact h.slot_ne_child hslot b0 rfl
      have hyx : y ≠ x := by
        rintro rfl
        exact slot_ne_of_dead hslot hx b0 rfl
      rw [Graph.read_set_child, if_neg hya, Graph.read_set_child, if_neg hyx, hslot]
  have hrep := hadd.replace hslot1 (by rw [Graph.set_node, if_pos rfl])
    (show _ = none by rw [Graph.set_node, if_neg haa'.symm, Graph.set_node, if_neg hxa'.symm, ha'])
  rw [Function.update_of_ne hax] at hrep
  rw [Graph.replace, write_set_comm _ (h.slot_ne_child hslot),
    write_set_comm _ (slot_ne_of_dead hslot hx), set_set, set_comm _ hax.symm, set_comm _ hxa'] at hrep
  exact hrep

/-- A node moved to a new address without one of its leaves. -/
theorem Inv.shrinkLeaf (h : Inv K g path) (hslot : g.read slot = some a)
    (ha : g.node a = some (.inner pre c)) {l : A} (hb : c b = some l) {k : List S} {v : V}
    (hl : g.node l = some (.leaf k v))
    (hkeep : ∃ b1 b2, b1 ≠ b2 ∧ b1 ≠ b ∧ b2 ≠ b ∧ (c b1).isSome ∧ (c b2).isSome)
    (ha' : g.node a' = none) :
    Inv K ((((g.write slot a').set a none).set l none).set a'
        (some (.inner pre (Function.update c b none))))
      (Function.update path a' (path a)) := by
  have hal : a ≠ l := by
    rintro rfl
    rw [hl] at ha
    cases ha
  have haa' : a ≠ a' := by
    rintro rfl
    rw [ha'] at ha
    cases ha
  have hla' : l ≠ a' := by
    rintro rfl
    rw [ha'] at hl
    cases hl
  have hslotl : ∀ b0, slot ≠ .child l b0 := by
    rintro b0 rfl
    obtain ⟨pre', c', hn, -⟩ := read_child_iff.mp hslot
    rw [hl] at hn
    cases hn
  have hrem := h.removeLeaf ha hb hl hkeep
  have hslot1 : ((g.set l none).set a
      (some (.inner pre (Function.update c b none)))).read slot = some a := by
    cases slot with
    | root => exact hslot
    | child y b0 =>
      have hya : y ≠ a := by
        rintro rfl
        exact h.slot_ne_child hslot b0 rfl
      have hyl : y ≠ l := by
        rintro rfl
        exact hslotl b0 rfl
      rw [Graph.read_set_child, if_neg hya, Graph.read_set_child, if_neg hyl, hslot]
  have hrep := hrem.replace hslot1 (by rw [Graph.set_node, if_pos rfl])
    (show _ = none by rw [Graph.set_node, if_neg haa'.symm, Graph.set_node, if_neg hla'.symm, ha'])
  rw [Graph.replace, write_set_comm _ (h.slot_ne_child hslot), write_set_comm _ hslotl, set_set,
    set_comm _ hal.symm] at hrep
  exact hrep

end Exchange

end Restructure

end Radix
