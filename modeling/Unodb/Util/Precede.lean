import Mathlib.Data.List.Infix
import Mathlib.Data.List.Lex
import Mathlib.Order.Lattice

/-!
# Strings that part in the right order

`Precedes r x y` says that the strings part at some place and that the symbols there are in the
relation `r`.  It is the strict lexicographic order without the case of a proper prefix, so it is
kept when both strings are extended, and it can be read in either direction of the symbols.
-/

variable {S : Type} {r : S → S → Prop} {x y z s : List S}

/-- The strings part, at symbols that are related by `r`. -/
inductive Precedes (r : S → S → Prop) : List S → List S → Prop where
  | head {a b : S} {x y : List S} : r a b → Precedes r (a :: x) (b :: y)
  | tail {a : S} {x y : List S} : Precedes r x y → Precedes r (a :: x) (a :: y)

namespace Precedes

theorem append (h : Precedes r x y) (u v : List S) : Precedes r (x ++ u) (y ++ v) := by
  induction h with
  | head hab => exact .head hab
  | tail _ ih => exact .tail ih

theorem mono {x' y' : List S} (h : Precedes r x y) (hx : x <+: x') (hy : y <+: y') :
    Precedes r x' y' := by
  obtain ⟨u, rfl⟩ := hx
  obtain ⟨v, rfl⟩ := hy
  exact h.append u v

theorem cons_left (w : List S) (h : Precedes r x y) : Precedes r (w ++ x) (w ++ y) := by
  induction w with
  | nil => exact h
  | cons a w ih => exact .tail ih

theorem of_fork {w : List S} {b c : S} (hbc : r b c) (hx : w ++ [b] <+: x) (hy : w ++ [c] <+: y) :
    Precedes r x y :=
  (cons_left w (.head hbc)).mono hx hy

theorem exists_fork (h : Precedes r x y) :
    ∃ w b c, r b c ∧ w ++ [b] <+: x ∧ w ++ [c] <+: y := by
  induction h with
  | @head a b x y hab => exact ⟨[], a, b, hab, ⟨x, rfl⟩, ⟨y, rfl⟩⟩
  | @tail a x y _ ih =>
    obtain ⟨w, b, c, hbc, hx, hy⟩ := ih
    exact ⟨a :: w, b, c, hbc, (List.prefix_cons_inj a).mpr hx, (List.prefix_cons_inj a).mpr hy⟩

theorem trans (hr : ∀ a b c, r a b → r b c → r a c) (h : Precedes r x y)
    (h' : Precedes r y z) : Precedes r x z := by
  induction h generalizing z with
  | head hab =>
    cases h' with
    | head hbc => exact .head (hr _ _ _ hab hbc)
    | tail _ => exact .head hab
  | tail _ ih =>
    cases h' with
    | head hbc => exact .head hbc
    | tail h' => exact .tail (ih h')

theorem not_isPrefix (hr : ∀ a, ¬ r a a) (h : Precedes r x y) : ¬ x <+: y := by
  induction h with
  | @head a b x y hab =>
    intro hpre
    rw [List.cons_prefix_cons] at hpre
    exact hr b (hpre.1 ▸ hab)
  | tail _ ih =>
    intro hpre
    rw [List.cons_prefix_cons] at hpre
    exact ih hpre.2

theorem flip (h : Precedes r x y) : Precedes (fun a b => r b a) y x := by
  induction h with
  | head hab => exact .head hab
  | tail _ ih => exact .tail ih

/-- The part that is read before the strings part is all that matters on the left. -/
theorem of_isPrefix_left (h : Precedes r x y) (hs : s <+: x) (hy : ¬ s <+: y) :
    Precedes r s y := by
  obtain ⟨w, b, c, hbc, hwx, hwy⟩ := h.exists_fork
  refine of_fork hbc (List.prefix_of_prefix_length_le hwx hs ?_) hwy
  by_contra hlt
  rw [List.length_append, List.length_singleton] at hlt
  have hsw : s <+: w :=
    List.prefix_of_prefix_length_le hs ((List.prefix_append w [b]).trans hwx) (by omega)
  exact hy (hsw.trans ((List.prefix_append w [c]).trans hwy))

theorem of_isPrefix_right (h : Precedes r x y) (hs : s <+: y) (hx : ¬ s <+: x) :
    Precedes r x s :=
  (h.flip.of_isPrefix_left hs hx).flip

end Precedes

/-- Strings neither of which is a prefix of the other part somewhere. -/
theorem precedes_or_precedes (hr : ∀ a b, a ≠ b → r a b ∨ r b a) (hxy : ¬ x <+: y)
    (hyx : ¬ y <+: x) : Precedes r x y ∨ Precedes r y x := by
  induction x generalizing y with
  | nil => exact absurd List.nil_prefix hxy
  | cons a x ih =>
    cases y with
    | nil => exact absurd List.nil_prefix hyx
    | cons b y =>
      by_cases hab : a = b
      · subst hab
        rw [List.prefix_cons_inj] at hxy hyx
        exact (ih hxy hyx).imp .tail .tail
      · exact (hr a b hab).imp .head .head

namespace Precedes

variable [LinearOrder S]

/-- Strings that part in order are in lexicographic order. -/
theorem lt (h : Precedes (· < ·) x y) : x < y := by
  induction h with
  | head hab => exact List.cons_lt_cons_iff.mpr (.inl hab)
  | tail _ ih => exact List.cons_lt_cons_iff.mpr (.inr ⟨rfl, ih⟩)

/-- Strings that part in order are apart in every other way. -/
theorem apart (h : Precedes (· < ·) x y) : ¬ y < x ∧ x ≠ y ∧ ¬ x <+: y ∧ ¬ y <+: x := by
  have hxy : ¬ x <+: y := h.not_isPrefix fun a => lt_irrefl a
  have hyx : ¬ y <+: x := not_isPrefix (r := fun a b => b < a) (fun a => lt_irrefl a) h.flip
  exact ⟨lt_asymm h.lt, fun heq => hxy (heq ▸ List.prefix_rfl), hxy, hyx⟩

end Precedes
