import Unodb.Util.Outcome
import Unodb.Db.Position

/-!
# The key buffer of an iterator

Next to its stack an iterator keeps the bytes that the entries of the stack spell.  `push` appends
the prefix and the key byte of an entry, while `pop` takes as many bytes as the prefix has.
-/

namespace Unodb

namespace Iterator

/-- The bytes that the inner entries of a stack spell, from its bottom to its top. -/
def spelled : List StackEntry → List UInt8
  | [] => []
  | e :: stack =>
    spelled stack ++ if e.node.type = .leaf then [] else e.keyPrefix.bytes ++ [e.keyByte]

/-- The buffer holds what the stack spells. -/
def Exact (it : Iterator) : Prop := it.keybuf = spelled it.stack

/-- By how many bytes the buffer is longer than what the stack spells. -/
def excess (it : Iterator) : Int := (it.keybuf.length : Int) - (spelled it.stack).length

theorem Exact.excess_eq {it : Iterator} (h : it.Exact) : it.excess = 0 := by
  unfold excess
  rw [show it.keybuf = spelled it.stack from h]
  omega

theorem spelled_cons_leaf {e : StackEntry} {stack : List StackEntry} (he : e.node.type = .leaf) :
    spelled (e :: stack) = spelled stack := by
  rw [spelled, if_pos he, List.append_nil]

theorem spelled_cons_inode {e : StackEntry} {stack : List StackEntry} (he : e.node.type ≠ .leaf) :
    spelled (e :: stack) = spelled stack ++ (e.keyPrefix.bytes ++ [e.keyByte]) := by
  rw [spelled, if_neg he]

/-! ## 1. Pushes -/

/-- The same bytes have been appended to the buffer and to what the stack spells. -/
def Pushes (it it' : Iterator) : Prop :=
  ∃ bytes, it'.keybuf = it.keybuf ++ bytes ∧ spelled it'.stack = spelled it.stack ++ bytes

theorem Pushes.exact {it it' : Iterator} (h : Pushes it it') (hexact : it.Exact) : it'.Exact := by
  obtain ⟨bytes, hkeybuf, hstack⟩ := h
  unfold Exact at hexact ⊢
  rw [hkeybuf, hstack, hexact]

theorem Pushes.excess_eq {it it' : Iterator} (h : Pushes it it') : it'.excess = it.excess := by
  obtain ⟨bytes, hkeybuf, hstack⟩ := h
  unfold excess
  rw [hkeybuf, hstack, List.length_append, List.length_append]
  omega

theorem Pushes.trans {it it' it'' : Iterator} (h : Pushes it it') (h' : Pushes it' it'') :
    Pushes it it'' := by
  obtain ⟨bytes, hkeybuf, hstack⟩ := h
  obtain ⟨bytes', hkeybuf', hstack'⟩ := h'
  refine ⟨bytes ++ bytes', ?_, ?_⟩
  · rw [hkeybuf', hkeybuf, List.append_assoc]
  · rw [hstack', hstack, List.append_assoc]

theorem push_ensures (it : Iterator) (node : NodePtr) (e : IterResult) :
    Ensures (it.push node e) (Pushes it) := by
  unfold push
  by_cases hnode : node.type = .leaf
  · rw [show assertThat (node.type ≠ .leaf) = .error .assertion from if_neg (not_not.mpr hnode)]
    exact .error
  · refine .bind_any fun _ => .pure ⟨e.keyPrefix.bytes ++ [e.keyByte], ?_, ?_⟩
    · exact List.append_assoc _ _ _
    · exact spelled_cons_inode hnode

theorem pushLeaf_pushes {it : Iterator} {leaf : NodePtr} (hleaf : leaf.type = .leaf) :
    Pushes it (it.pushLeaf leaf) :=
  ⟨[], (List.append_nil _).symm, (spelled_cons_leaf hleaf).trans (List.append_nil _).symm⟩

theorem traversal_ensures {t : Tree} {fwd : Bool} {fuel : Nat} {node : NodePtr} {it : Iterator} :
    Ensures (traversal t fwd fuel node it) (Pushes it) := by
  induction fuel generalizing node it with
  | zero => exact .error
  | succ fuel ih =>
    rw [traversal]
    refine .ite (fun htype => .pure (pushLeaf_pushes htype)) fun _ => ?_
    refine .bind_any fun inode => .bind_any fun e => .bind (push_ensures it node e) fun it' hit' => ?_
    split
    · exact Ensures.mono ih fun it'' h => hit'.trans h
    · exact .error

/-! ## 2. Pops -/

/-- A pop of an inner entry leaves one byte too many. -/
theorem popKeybuf_ensures (keybuf : List UInt8) {e : StackEntry} (stack : List StackEntry)
    (he : e.node.type ≠ .leaf) :
    Ensures (popKeybuf keybuf e) fun keybuf' =>
      excess ⟨stack, keybuf'⟩ = excess ⟨e :: stack, keybuf⟩ + 1 := by
  unfold popKeybuf
  by_cases hle : e.keyPrefix.length ≤ keybuf.length
  · refine .bind_any fun _ => .pure ?_
    unfold excess
    dsimp only
    rw [spelled_cons_inode he, List.length_take, List.length_append, List.length_append,
      KeyPrefix.bytes_length, List.length_singleton]
    omega
  · rw [show assertThat (e.keyPrefix.length ≤ keybuf.length) = .error .assertion from if_neg hle]
    exact .error

/-- The entries of inner nodes. -/
def Inner (stack : List StackEntry) : Prop := ∀ e ∈ stack, e.node.type ≠ .leaf

theorem Inner.tail {e : StackEntry} {stack : List StackEntry} (h : Inner (e :: stack)) :
    Inner stack := fun e' he' => h e' (List.mem_cons_of_mem e he')

/-- A move from a stack of inner entries pops one of them, if there is any. -/
theorem advance_ensures {s : Db sizes} {fwd : Bool} {stack : List StackEntry} {keybuf : List UInt8}
    (hinner : Inner stack) :
    Ensures (advance s fwd stack keybuf) fun it' =>
      excess ⟨stack, keybuf⟩ ≤ it'.excess ∧
      (stack ≠ [] → excess ⟨stack, keybuf⟩ < it'.excess) := by
  induction stack generalizing keybuf with
  | nil => exact .ok ⟨le_rfl, fun h => absurd rfl h⟩
  | cons e stack ih =>
    have he : e.node.type ≠ .leaf := hinner e List.mem_cons_self
    have hlt : ∀ {it' : Iterator} {keybuf' : List UInt8},
        excess ⟨stack, keybuf'⟩ = excess ⟨e :: stack, keybuf⟩ + 1 →
        excess ⟨stack, keybuf'⟩ ≤ it'.excess → excess ⟨e :: stack, keybuf⟩ ≤ it'.excess ∧
          (e :: stack ≠ [] → excess ⟨e :: stack, keybuf⟩ < it'.excess) :=
      fun hpop hle => ⟨by omega, fun _ => by omega⟩
    rw [advance, if_neg he]
    refine .bind_any fun inode => .bind_any fun r => ?_
    cases r with
    | none =>
      exact .bind (popKeybuf_ensures keybuf stack he) fun keybuf' hpop =>
        Ensures.mono (ih hinner.tail) fun it' h => hlt hpop h.1
    | some e2 =>
      refine .bind (popKeybuf_ensures keybuf stack he) fun keybuf' hpop =>
        .bind (push_ensures ⟨stack, keybuf'⟩ e.node e2) fun it hit => ?_
      split
      · exact Ensures.mono traversal_ensures fun it' h =>
          hlt hpop (by rw [(hit.trans h).excess_eq])
      · exact .error

theorem unwind_ensures {s : Db sizes} {fwd : Bool} {stack : List StackEntry} {keybuf : List UInt8}
    (hinner : Inner stack) :
    Ensures (unwind s fwd stack keybuf) fun it' => excess ⟨stack, keybuf⟩ ≤ it'.excess := by
  induction stack generalizing keybuf with
  | nil => exact .ok le_rfl
  | cons e stack ih =>
    rw [unwind]
    refine .bind_any fun inode => .bind_any fun r => ?_
    cases r with
    | none =>
      refine .bind (popKeybuf_ensures keybuf stack (hinner e List.mem_cons_self)) fun keybuf' hpop => ?_
      exact Ensures.mono (ih hinner.tail) fun it' h => by omega
    | some _ =>
      dsimp only
      split
      · exact Ensures.mono traversal_ensures fun it' h => by rw [h.excess_eq]
      · exact .error

/-- The entry of a leaf has no bytes. -/
theorem popKeybuf_leaf (keybuf : List UInt8) (p : NodePtr) :
    popKeybuf keybuf (leafEntry p) = .ok keybuf := by
  rw [popKeybuf_ok (by rw [leafEntry_length]; exact Nat.zero_le _), leafEntry_length, Nat.sub_zero,
    List.take_length]

/-- `next` and `prior` from a leaf keep the buffer exact below the root only. -/
theorem advance_leaf_ensures {s : Db sizes} {fwd : Bool} {p : NodePtr} {stack : List StackEntry}
    {keybuf : List UInt8} (hp : p.type = .leaf) (hinner : Inner stack)
    (hexact : Exact ⟨leafEntry p :: stack, keybuf⟩) :
    Ensures (advance s fwd (leafEntry p :: stack) keybuf) fun it' => it'.Exact ↔ stack = [] := by
  have hspelled : spelled (leafEntry p :: stack) = spelled stack := spelled_cons_leaf hp
  have hzero : excess ⟨stack, keybuf⟩ = 0 := by
    have hexact' : Exact ⟨stack, keybuf⟩ :=
      (show keybuf = spelled (leafEntry p :: stack) from hexact).trans hspelled
    exact hexact'.excess_eq
  have hrun : advance s fwd (leafEntry p :: stack) keybuf = advance s fwd stack keybuf := by
    rw [advance, if_pos (show (leafEntry p).node.type = .leaf from hp), popKeybuf_leaf]
    rfl
  rw [hrun]
  cases stack with
  | nil =>
    refine .ok (iff_of_true ?_ rfl)
    exact (show keybuf = spelled (leafEntry p :: []) from hexact).trans hspelled
  | cons e stack =>
    refine Ensures.mono (advance_ensures hinner) fun it' h => ?_
    refine iff_of_false (fun hex => ?_) (List.cons_ne_nil _ _)
    have hlt := h.2 (List.cons_ne_nil _ _)
    rw [hzero, hex.excess_eq] at hlt
    exact absurd hlt (lt_irrefl 0)

end Iterator

/-! ## 3. Stacks of the tree -/

section Path

variable {K : Set (List UInt8)} {path : NodePtr → List UInt8} {t : Tree} (h : t.Inv K path)
  {stack : List StackEntry} {slot : Radix.Slot NodePtr UInt8}

theorem OnPath.inner (hpath : OnPath t stack slot) : Iterator.Inner stack := by
  induction hpath with
  | root => exact fun e he => absurd he List.not_mem_nil
  | @child stack slot p n e hpath hread hp hres ih =>
    intro e' he'
    rcases List.mem_cons.mp he' with rfl | he'
    · exact (Tree.deref_eq_some_iff.mp hp).2 ▸ n.type_ne_leaf
    · exact ih e' he'

include h

/-- What the stack spells is what leads to the slot. -/
theorem OnPath.spelled_eq (hpath : OnPath t stack slot) : Iterator.spelled stack = slot.start path := by
  induction hpath with
  | root => rfl
  | @child stack slot p n e hpath hread hp hres ih =>
    have htype : p.type ≠ .leaf := (Tree.deref_eq_some_iff.mp hp).2 ▸ n.type_ne_leaf
    rw [Iterator.spelled_cons_inode htype, ih]
    show _ = path p ++ [e.keyByte]
    rw [h.path_eq hread hp, List.append_assoc, hres.keyPrefix_eq]

end Path

end Unodb
