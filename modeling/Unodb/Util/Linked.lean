import Mathlib.Data.List.Basic

/-!
# Singly linked lists in memory

The nodes that are reached from a head pointer, for any type of nodes with a `next` pointer.
-/

section Linked

variable {α : Type} (next : α → Option Nat)

/-- The nodes of the list that starts at a pointer. -/
inductive IsList (nodes : Nat → Option α) : Option Nat → List Nat → Prop where
  | nil : IsList nodes none []
  | cons {a : Nat} {x : α} {l : List Nat} : nodes a = some x → IsList nodes (next x) l →
      IsList nodes (some a) (a :: l)

namespace IsList

variable {next} {nodes nodes' : Nat → Option α} {head : Option Nat} {l l' : List Nat} {a b : Nat}
  {x : α}

/-- Nodes outside the list do not matter. -/
theorem congr (h : IsList next nodes head l) (heq : ∀ a ∈ l, nodes' a = nodes a) :
    IsList next nodes' head l := by
  induction h with
  | nil => exact .nil
  | cons hx _ ih =>
    refine .cons ((heq _ List.mem_cons_self).trans hx) (ih ?_)
    exact fun b hb => heq b (List.mem_cons_of_mem _ hb)

/-- A pointer is the head of one list. -/
theorem unique (h : IsList next nodes head l) (h' : IsList next nodes head l') : l = l' := by
  induction h generalizing l' with
  | nil =>
    cases h'
    rfl
  | cons hx _ ih =>
    cases h' with
    | cons hx' hrest =>
      cases hx.symm.trans hx'
      rw [ih hrest]

theorem exists_node (h : IsList next nodes head l) (ha : a ∈ l) : ∃ x, nodes a = some x := by
  induction h with
  | nil => exact absurd ha List.not_mem_nil
  | cons hx _ ih =>
    rcases List.mem_cons.mp ha with rfl | ha
    · exact ⟨_, hx⟩
    · exact ih ha

/-- The rest of the list after one of its nodes. -/
theorem suffix (h : IsList next nodes head l) (ha : a ∈ l) (hx : nodes a = some x) :
    ∃ l' rest, l = l' ++ a :: rest ∧ IsList next nodes (next x) rest := by
  induction h with
  | nil => exact absurd ha List.not_mem_nil
  | @cons b y l hy hrest ih =>
    rcases List.mem_cons.mp ha with rfl | ha
    · rw [hy] at hx
      cases hx
      exact ⟨[], l, rfl, hrest⟩
    · obtain ⟨l', rest, rfl, hsuffix⟩ := ih ha
      exact ⟨b :: l', rest, rfl, hsuffix⟩

/-- Following `next` stays in the list. -/
theorem mem_next (h : IsList next nodes head l) (ha : a ∈ l) (hx : nodes a = some x)
    (hnext : next x = some b) : b ∈ l := by
  obtain ⟨l', rest, rfl, hsuffix⟩ := h.suffix ha hx
  rw [hnext] at hsuffix
  cases hsuffix with
  | cons => simp

/-- The node without a next one is the last. -/
theorem getLast?_eq (h : IsList next nodes head l) (ha : a ∈ l) (hx : nodes a = some x)
    (hnext : next x = none) : l.getLast? = some a := by
  obtain ⟨l', rest, rfl, hsuffix⟩ := h.suffix ha hx
  rw [hnext] at hsuffix
  cases hsuffix
  simp

/-- The last node is made to point to another list. -/
theorem append (h : IsList next nodes head l) (hlast : l.getLast? = some a) (hnodup : l.Nodup)
    (heq : ∀ b, b ≠ a → nodes' b = nodes b) (hx : nodes' a = some x)
    (h' : IsList next nodes (next x) l') (ha : a ∉ l') : IsList next nodes' head (l ++ l') := by
  induction h with
  | nil => exact absurd hlast (by simp)
  | @cons b y l hy hrest ih =>
    have hb : b ∉ l := (List.nodup_cons.mp hnodup).1
    cases l with
    | nil =>
      have hba : b = a := by simpa using hlast
      subst hba
      refine .cons hx (h'.congr fun c hc => heq c ?_)
      rintro rfl
      exact ha hc
    | cons c l =>
      rw [List.getLast?_cons_cons] at hlast
      have hba : b ≠ a := by
        rintro rfl
        exact hb (List.mem_of_getLast? hlast)
      refine .cons ((heq b hba).trans hy) ?_
      exact ih hlast (List.nodup_cons.mp hnodup).2

/-- Nodes outside several lists do not matter to any of them. -/
theorem forall₂_congr {heads : List (Option Nat)} {ls : List (List Nat)}
    (h : List.Forall₂ (IsList next nodes) heads ls) (heq : ∀ a ∈ ls.flatten, nodes' a = nodes a) :
    List.Forall₂ (IsList next nodes') heads ls := by
  induction h with
  | nil => exact .nil
  | cons hl _ ih =>
    refine .cons (hl.congr fun a ha => heq a ?_) (ih fun a ha => heq a ?_)
    · exact List.mem_append_left _ ha
    · exact List.mem_append_right _ ha

theorem forall₂_exists_node {heads : List (Option Nat)} {ls : List (List Nat)}
    (h : List.Forall₂ (IsList next nodes) heads ls) (ha : a ∈ ls.flatten) :
    ∃ x, nodes a = some x := by
  induction h with
  | nil => exact absurd ha List.not_mem_nil
  | cons hl _ ih =>
    rcases List.mem_append.mp ha with ha | ha
    · exact hl.exists_node ha
    · exact ih ha

end IsList

end Linked
