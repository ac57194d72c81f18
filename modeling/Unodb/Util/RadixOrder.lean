import Unodb.Util.Radix
import Unodb.Util.Precede

/-!
# The keys of a radix graph in order

`r` orders the symbols, in one direction or the other.  What comes first below a slot, and what
comes next after everything below it, is found by looking at the children of one node at a time.
-/

namespace Precedes

variable {S : Type} {r : S → S → Prop} (hr : ∀ a, ¬ r a a)
include hr

/-- Strings that part at their last symbols. -/
theorem of_snoc {w : List S} {b c : S} (h : Precedes r (w ++ [b]) (w ++ [c])) : r b c := by
  induction w with
  | nil =>
    cases h with
    | head hbc => exact hbc
    | tail h => nomatch h
  | cons a w ih =>
    cases h with
    | head haa => exact absurd haa (hr a)
    | tail h => exact ih h

theorem irrefl {x : List S} : ¬ Precedes r x x := fun h => h.not_isPrefix hr List.prefix_rfl

end Precedes

namespace Radix

variable {A S V : Type} {K : Set (List S)} {g : Graph A S V} {path : A → List S}
  {slot : Slot A S} {x y : A} {pre : List S} {c : S → Option A} {k s : List S} {v : V} {b : S}

/-- `k` is the first key that starts with `s`. -/
structure FirstBelow (r : S → S → Prop) (g : Graph A S V) (s k : List S) : Prop where
  below : s <+: k
  first : ∀ {k' v'}, g.Binds k' v' → s <+: k' → k' = k ∨ Precedes r k k'

/-- `k` is the first key beyond those that start with `s`. -/
structure NextAfter (r : S → S → Prop) (g : Graph A S V) (s k : List S) : Prop where
  after : Precedes r s k
  first : ∀ {k' v'}, g.Binds k' v' → Precedes r s k' → k' = k ∨ Precedes r k k'

/-- No key lies beyond those that start with `s`. -/
def NoneAfter (r : S → S → Prop) (g : Graph A S V) (s : List S) : Prop :=
  ∀ {k v}, g.Binds k v → ¬ Precedes r s k

/-- `b` is the first symbol of a set. -/
def FirstIn (r : S → S → Prop) (T : Set S) (b : S) : Prop := b ∈ T ∧ ∀ b' ∈ T, b' = b ∨ r b b'

variable {r : S → S → Prop}

section

variable (h : Inv K g path)
include h

/-- The first key below the first child of a node is the first key below the node. -/
theorem Inv.firstBelow_child (hread : g.read slot = some x) (hx : g.node x = some (.inner pre c))
    (hb : FirstIn r {b | (c b).isSome} b) (hk : FirstBelow r g (path x ++ [b]) k) :
    FirstBelow r g (slot.start path) k := by
  have hstart : slot.start path <+: path x := h.start_isPrefix hread
  refine ⟨(hstart.trans (List.prefix_append _ _)).trans hk.below, ?_⟩
  intro k' v' hk' hs
  obtain ⟨b', y, hy, hpath⟩ := h.next_of_binds hread hx hk' hs
  rcases hb.2 b' (by rw [Set.mem_ofPred_eq, hy]; rfl) with rfl | hlt
  · exact hk.first hk' hpath
  · exact .inr (.of_fork hlt hk.below hpath)

theorem Inv.firstBelow_leaf (hread : g.read slot = some x) (hx : g.node x = some (.leaf k v)) :
    FirstBelow r g (slot.start path) k := by
  obtain ⟨n, hn, hstart⟩ := h.live hread
  rw [hx] at hn
  cases hn
  exact ⟨hstart.2, fun hk' hs => .inl (h.eq_of_leaf hread hx hk' hs).1⟩

variable (hr : ∀ a, ¬ r a a)
include hr

/-- A key beyond a child is beyond the node of the child or below a later child. -/
theorem Inv.after_child_iff (hread : g.read slot = some x) (hx : g.node x = some (.inner pre c))
    (hk : g.Binds k v) : Precedes r (path x ++ [b]) k ↔
      Precedes r (slot.start path) k ∨ ∃ b', (c b').isSome ∧ r b b' ∧ path x ++ [b'] <+: k := by
  have hstart : slot.start path <+: path x ++ [b] :=
    (h.start_isPrefix hread).trans (List.prefix_append _ _)
  constructor
  · intro hbk
    by_cases hs : slot.start path <+: k
    · obtain ⟨b', y, hy, hpath⟩ := h.next_of_binds hread hx hk hs
      refine .inr ⟨b', by rw [hy]; rfl, ?_, hpath⟩
      have hne : ¬ path x ++ [b'] <+: path x ++ [b] := by
        intro hpre
        rw [hpre.eq_of_length (by simp)] at hpath
        exact hbk.not_isPrefix hr hpath
      exact (hbk.of_isPrefix_right hpath hne).of_snoc hr
    · exact .inl (hbk.of_isPrefix_left hstart hs)
  · rintro (hs | ⟨b', -, hlt, hpath⟩)
    · exact hs.mono hstart List.prefix_rfl
    · exact .of_fork hlt List.prefix_rfl hpath

/-- From a child to a later sibling. -/
theorem Inv.nextAfter_sibling {b' : S} (hread : g.read slot = some x)
    (hx : g.node x = some (.inner pre c)) (hb : FirstIn r {b' | (c b').isSome ∧ r b b'} b')
    (hk : FirstBelow r g (path x ++ [b']) k) : NextAfter r g (path x ++ [b]) k := by
  have hstart : slot.start path <+: k :=
    ((h.start_isPrefix hread).trans (List.prefix_append _ _)).trans hk.below
  refine ⟨.of_fork hb.1.2 List.prefix_rfl hk.below, ?_⟩
  intro k' v' hk' hafter
  rcases (h.after_child_iff hr hread hx hk').mp hafter with hs | ⟨b₂, hsome, hlt, hpath⟩
  · exact .inr (hs.mono hstart List.prefix_rfl)
  · rcases hb.2 b₂ ⟨hsome, hlt⟩ with rfl | hlt'
    · exact hk.first hk' hpath
    · exact .inr (.of_fork hlt' hk.below hpath)

/-- Without a later sibling the search goes on from the node of the child. -/
theorem Inv.after_last_child (hread : g.read slot = some x) (hx : g.node x = some (.inner pre c))
    (hb : ∀ b', (c b').isSome → ¬ r b b') (hk : g.Binds k v) :
    Precedes r (path x ++ [b]) k ↔ Precedes r (slot.start path) k := by
  rw [h.after_child_iff hr hread hx hk, or_iff_left]
  rintro ⟨b', hsome, hlt, -⟩
  exact hb b' hsome hlt

/-- What comes after the slot of a leaf comes after its key. -/
theorem Inv.after_leaf {k₀ : List S} {v₀ : V} (hread : g.read slot = some x)
    (hx : g.node x = some (.leaf k₀ v₀)) (hk : g.Binds k v) :
    Precedes r k₀ k ↔ Precedes r (slot.start path) k := by
  have hstart : slot.start path <+: k₀ := (h.firstBelow_leaf (r := r) hread hx).below
  constructor
  · intro hafter
    refine hafter.of_isPrefix_left hstart fun hs => ?_
    rw [(h.eq_of_leaf hread hx hk hs).1] at hafter
    exact Precedes.irrefl hr hafter
  · intro hafter
    exact hafter.mono hstart List.prefix_rfl

end

theorem NextAfter.congr {s' : List S} (h : NextAfter r g s k) {v : V} (hk : g.Binds k v)
    (hiff : ∀ {k v}, g.Binds k v → (Precedes r s' k ↔ Precedes r s k)) : NextAfter r g s' k :=
  ⟨(hiff hk).mpr h.after, fun hk' hs => h.first hk' ((hiff hk').mp hs)⟩

theorem NoneAfter.congr {s' : List S} (h : NoneAfter r g s)
    (hiff : ∀ {k v}, g.Binds k v → (Precedes r s' k ↔ Precedes r s k)) : NoneAfter r g s' :=
  fun hk hs => h hk ((hiff hk).mp hs)

end Radix
