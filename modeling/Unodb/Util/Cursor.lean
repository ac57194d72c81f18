import Unodb.Util.RadixOrder

/-!
# Cursors on an ordered set

A cursor is on an element of a set or past its end.  Starting at the first element and always moving
to the next one reads a sorted list of the elements from its start.
-/

namespace Radix

variable {α : Type} {r : α → α → Prop} {S : Set α} {l : List α} {a b : α} {c c' : Option α}

/-- The first element of a set, or the end when the set is empty. -/
def Foremost (r : α → α → Prop) (S : Set α) : Option α → Prop
  | none => S = ∅
  | some a => FirstIn r S a

/-- Where a cursor moves: to the first element beyond the one it is on. -/
def Follows (r : α → α → Prop) (S : Set α) : Option α → Option α → Prop
  | none, c => c = none
  | some a, c => Foremost r {b | b ∈ S ∧ r a b} c

theorem Foremost.unique (hr : ∀ {a b}, r a b → ¬ r b a) (h : Foremost r S c)
    (h' : Foremost r S c') : c = c' := by
  cases c with
  | none =>
    cases c' with
    | none => rfl
    | some b =>
      have hS : S = ∅ := h
      exact absurd h'.1 (hS ▸ Set.notMem_empty b)
  | some a =>
    cases c' with
    | none =>
      have hS : S = ∅ := h'
      exact absurd h.1 (hS ▸ Set.notMem_empty a)
    | some b =>
      rcases h.2 b h'.1 with rfl | hab
      · rfl
      · rcases h'.2 a h.1 with rfl | hba
        · rfl
        · exact absurd hba (hr hab)

theorem Follows.unique (hr : ∀ {a b}, r a b → ¬ r b a) {c₀ : Option α} (h : Follows r S c₀ c)
    (h' : Follows r S c₀ c') : c = c' := by
  cases c₀ with
  | none => exact Eq.trans h (Eq.symm h')
  | some a => exact Foremost.unique hr h h'

/-- The way back: an element is the first one before the next one after it. -/
theorem Follows.back (hr : ∀ {a b}, r a b → ¬ r b a) (htri : ∀ a b, a = b ∨ r a b ∨ r b a)
    (ha : a ∈ S) (h : Follows r S (some a) (some b)) :
    Follows (fun x y => r y x) S (some b) (some a) := by
  refine ⟨⟨ha, h.1.2⟩, ?_⟩
  rintro x ⟨hx, hxb⟩
  rcases htri x a with heq | hxa | hax
  · exact .inl heq
  · exact .inr hxa
  · rcases h.2 x ⟨hx, hax⟩ with rfl | hbx
    · exact absurd hxb (hr hxb)
    · exact absurd hxb (hr hbx)

section Sorted

variable (hl : l.Pairwise r) (hmem : ∀ a, a ∈ l ↔ a ∈ S)
include hl hmem

theorem foremost_head? : Foremost r S l[0]? := by
  cases l with
  | nil =>
    show S = ∅
    exact Set.eq_empty_iff_forall_notMem.mpr fun a ha => by cases (hmem a).mpr ha
  | cons a l =>
    refine ⟨(hmem a).mp List.mem_cons_self, fun b hb => ?_⟩
    rcases List.mem_cons.mp ((hmem b).mpr hb) with heq | htail
    · exact .inl heq
    · exact .inr (List.rel_of_pairwise_cons hl htail)

/-- The elements of a sorted list beyond one of them are those after it. -/
theorem follows_getElem? (hr : ∀ {a b}, r a b → ¬ r b a) (n : Nat) :
    Follows r S l[n]? l[n + 1]? := by
  by_cases hn : n < l.length
  case neg => rw [List.getElem?_eq_none (by omega), List.getElem?_eq_none (by omega)]; rfl
  rw [List.getElem?_eq_getElem hn]
  have hsplit : l = l.take n ++ l[n] :: l.drop (n + 1) := by
    rw [← List.drop_eq_getElem_cons hn, List.take_append_drop]
  generalize l[n] = a at hsplit
  have hget : l[n + 1]? = (l.drop (n + 1))[0]? := by rw [List.getElem?_drop, Nat.add_zero]
  rw [hget]
  generalize l.drop (n + 1) = rest at hsplit
  generalize l.take n = front at hsplit
  subst hsplit
  obtain ⟨-, hrest, hfront⟩ := List.pairwise_append.mp hl
  refine foremost_head? (List.Pairwise.of_cons hrest) fun b => ?_
  constructor
  · intro hb
    exact ⟨(hmem b).mp (by simp [hb]), List.rel_of_pairwise_cons hrest hb⟩
  · rintro ⟨hb, hab⟩
    rcases List.mem_append.mp ((hmem b).mpr hb) with hbf | hbr
    · exact absurd hab (hr (hfront b hbf a List.mem_cons_self))
    · rcases List.mem_cons.mp hbr with rfl | hbr
      · exact absurd hab (hr hab)
      · exact hbr

/-- From the start, `n` moves lead to element `n` of the sorted list. -/
theorem getElem?_of_moves (hr : ∀ {a b}, r a b → ¬ r b a) {c : Nat → Option α}
    (hfirst : Foremost r S (c 0)) (hnext : ∀ n, Follows r S (c n) (c (n + 1))) (n : Nat) :
    c n = l[n]? := by
  induction n with
  | zero => exact hfirst.unique hr (foremost_head? hl hmem)
  | succ n ih =>
    have hn := hnext n
    rw [ih] at hn
    exact hn.unique hr (follows_getElem? hl hmem hr n)

end Sorted

end Radix
