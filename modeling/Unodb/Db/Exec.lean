import Unodb.Db.State
import Unodb.Tree.Descent

/-!
# What the parts of `db` operations do

One lemma for each primitive and for each way an operation changes the tree, with the resulting
state written out.
-/

open Arrays

namespace Unodb

/-! ## 1. Running programs -/

theorem DbM.bind_ok {α β : Type} {x : DbM sizes α} {f : α → DbM sizes β} {s s' : Db sizes} {a : α}
    (h : x s = .ok a s') : (x >>= f) s = f a s' := by
  simp only [bind, EStateM.bind, h]

theorem DbM.bind_error {α β : Type} {x : DbM sizes α} {f : α → DbM sizes β} {s s' : Db sizes}
    {fault : Fault}
    (h : x s = .error fault s') : (x >>= f) s = .error fault s' := by
  simp only [bind, EStateM.bind, h]

/-- The two halves of a program that returns. -/
theorem DbM.of_bind_ok {α β : Type} {x : DbM sizes α} {f : α → DbM sizes β} {s s' : Db sizes} {b : β}
    (h : (x >>= f) s = .ok b s') : ∃ a s₁, x s = .ok a s₁ ∧ f a s₁ = .ok b s' := by
  cases hx : x s with
  | ok a s₁ =>
    rw [bind_ok hx] at h
    exact ⟨a, s₁, rfl, h⟩
  | error fault s₁ =>
    rw [bind_error hx] at h
    cases h

/-- A computation without the state that returns. -/
theorem DbM.of_lift_ok {α β : Type} {e : Except Fault α} {f : α → DbM sizes β} {s s' : Db sizes} {b : β}
    (h : ((liftM e : DbM sizes α) >>= f) s = .ok b s') : ∃ a, e = .ok a ∧ f a s = .ok b s' := by
  cases e with
  | ok a => exact ⟨a, rfl, h⟩
  | error fault => cases h

theorem DbM.lift_ok {α : Type} {e : Except Fault α} {a : α} (h : e = .ok a) (s : Db sizes) :
    (liftM e : DbM sizes α) s = .ok a s := by
  subst h
  rfl

/-- The next value a program binds is that of a pure computation. -/
theorem DbM.bind_lift {α β : Type} {e : Except Fault α} {f : α → DbM sizes β} {a : α} (h : e = .ok a)
    (s : Db sizes) : ((liftM e : DbM sizes α) >>= f) s = f a s :=
  DbM.bind_ok (DbM.lift_ok h s)

theorem DbM.bind_get {β : Type} {f : Db sizes → DbM sizes β} (s : Db sizes) :
    ((get : DbM sizes (Db sizes)) >>= f) s = f s s := rfl

theorem DbM.bind_modify {β : Type} {g : Db sizes → Db sizes} {f : PUnit → DbM sizes β} (s : Db sizes) :
    ((modify g : DbM sizes PUnit) >>= f) s = f ⟨⟩ (g s) := rfl

namespace Tree

variable {t : Tree} {p : NodePtr}

theorem readInode_ok {n : INode NodePtr} (h : t.deref p = some (.inode n)) :
    t.readInode p = .ok n := by
  rw [readInode, h]

theorem readLeaf_ok {k v : List UInt8} (h : t.deref p = some (.leaf k v)) :
    t.readLeaf p = .ok (k, v) := by
  rw [readLeaf, h]

theorem readSlot_ok {sl : Slot} (h : t.load sl = some p) : t.readSlot sl = .ok p := by
  rw [readSlot, h]

end Tree

namespace Db

variable {s : Db sizes} {p : NodePtr}

theorem readInode_ok {n : INode NodePtr} (h : s.tree.deref p = some (.inode n)) :
    readInode p s = .ok n s :=
  DbM.lift_ok (Tree.readInode_ok h) s

theorem of_readInode_ok {n : INode NodePtr} {s' : Db sizes} (h : readInode p s = .ok n s') :
    s.tree.deref p = some (.inode n) ∧ s' = s := by
  rw [readInode, DbM.bind_get, Tree.readInode] at h
  split at h
  case h_1 n' hp =>
    cases h
    exact ⟨hp, rfl⟩
  case h_2 => cases h

theorem readKey_ok {k v : List UInt8} (h : s.tree.deref p = some (.leaf k v)) :
    readKey p s = .ok k s := by
  rw [readKey, DbM.bind_get, DbM.bind_lift (Tree.readLeaf_ok h)]
  rfl

theorem readSlot_ok {sl : Slot} (h : s.tree.load sl = some p) : readSlot sl s = .ok p s :=
  DbM.lift_ok (Tree.readSlot_ok h) s

/-- The state after a node is allocated. -/
def allocated (s : Db sizes) (body : Body) : Db sizes where
  tree := s.tree.set s.next (some body)
  next := s.next + 1
  stats := Accounted.counted sizes s.stats body
  memory := s.memory

/-- The state after a node is freed. -/
def freed (s : Db sizes) (p : NodePtr) (body : Body) : Db sizes :=
  { s with tree := s.tree.set p.addr none, stats := Accounted.uncounted sizes s.stats body }

theorem allocate_ok {type : NodeType} (h : s.memory type = true) (newLeaf : Option NodePtr) :
    allocate type newLeaf s = .ok () s := by
  rw [allocate, DbM.bind_get, h]
  rfl

theorem alloc_ok (s : Db sizes) (body : Body) :
    alloc body s = .ok ⟨s.next, body.type⟩ (s.allocated body) := by
  rw [alloc, DbM.bind_get, DbM.bind_lift (Accounted.increment_eq sizes s.stats body)]
  rfl

theorem free_ok {body : Body} (h : Accounted sizes s.tree s.next s.stats)
    (hp : s.tree.deref p = some body) : free p s = .ok () (s.freed p body) := by
  have hheap := (Tree.deref_eq_some_iff.mp hp).1
  rw [free, DbM.bind_get]
  simp only [hp]
  rw [DbM.bind_lift (h.decrement_eq hheap)]
  rfl

theorem accountGrowingInode_ok {type : NodeType}
    (h : s.stats.nodeCounts type ≤ s.stats.growingInodeCounts type + 1) :
    accountGrowingInode type s = .ok () { s with stats := s.stats.grown type } := by
  rw [accountGrowingInode, DbM.bind_modify, DbM.bind_get]
  refine DbM.lift_ok (assertThat_pos ?_) _
  simpa only [Stats.grown, Function.update_self] using h

theorem accountShrinkingInode_ok {type : NodeType}
    (h : s.stats.shrinkingInodeCounts type < s.stats.growingInodeCounts type) :
    accountShrinkingInode type s = .ok () { s with stats := s.stats.shrunk type } := by
  rw [accountShrinkingInode, DbM.bind_modify, DbM.bind_get]
  refine DbM.lift_ok (assertThat_pos ?_) _
  simp only [Stats.shrunk, Function.update_self]
  exact h

theorem accountKeyPrefixSplit_ok
    (h : s.stats.keyPrefixSplits + 1 < s.stats.growingInodeCounts .i4) :
    accountKeyPrefixSplit s =
      .ok () { s with stats.keyPrefixSplits := s.stats.keyPrefixSplits + 1 } := by
  rw [accountKeyPrefixSplit, DbM.bind_modify, DbM.bind_get]
  exact DbM.lift_ok (assertThat_pos h) _

section Key

variable {κ : Type} [ArtKey κ]

/-- The state after the leaf for a new key is made. -/
def withLeaf (s : Db sizes) (k : κ) (v : List UInt8) : Db sizes :=
  s.allocated (.leaf (ArtKey.getKeyView k) v)

theorem makeDbLeafPtr_ok {k : κ} {v : List UInt8} (h : leafRefusal k v = none)
    (hmem : s.memory .leaf = true) :
    makeDbLeafPtr k v s = .ok ⟨s.next, .leaf⟩ (s.withLeaf k v) := by
  rw [makeDbLeafPtr, h]
  simp only
  rw [DbM.bind_ok (allocate_ok hmem none)]
  exact alloc_ok s _

/-- A key or a value that is too long is refused before anything changes. -/
theorem makeDbLeafPtr_error {k : κ} {v : List UInt8} {what : String}
    (h : leafRefusal k v = some what) (s : Db sizes) :
    makeDbLeafPtr k v s = .error (.lengthError what) s := by
  rw [makeDbLeafPtr, h]
  rfl

end Key

end Db

end Unodb
