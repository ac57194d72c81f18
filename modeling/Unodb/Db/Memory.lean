import Unodb.Db.Counters
import Unodb.Db.Ordered
import Unodb.Util.Runs

/-!
# Allocations that fail

A call for which there is no memory for some of the node classes does what it does with memory for
all of them, or it throws `std::bad_alloc` and leaves the `db` as it was.
-/

namespace Unodb

namespace Db

variable {α β : Type} {s₀ s s' : Db sizes} {memory : NodeType → Bool} {x : DbM sizes α}
  {f : α → DbM sizes β}

/-! ## 1. Programs that allocate nothing -/

/-- The state with memory for these node classes only. -/
def withMemory (s : Db sizes) (memory : NodeType → Bool) : Db sizes := { s with memory }

/-- What a program comes to, with memory for these node classes only. -/
def limited (memory : NodeType → Bool) :
    EStateM.Result Fault (Db sizes) α → EStateM.Result Fault (Db sizes) α
  | .ok a s => .ok a (s.withMemory memory)
  | .error fault s => .error fault (s.withMemory memory)

/-- What the program does has nothing to do with what there is memory for. -/
def Unaware (x : DbM sizes α) : Prop :=
  ∀ s memory, x (s.withMemory memory) = limited memory (x s)

theorem Unaware.pure (a : α) : Unaware (pure a : DbM sizes α) := fun _ _ => rfl

theorem Unaware.throw (fault : Fault) : Unaware (throw fault : DbM sizes α) := fun _ _ => rfl

theorem Unaware.lift (e : Except Fault α) : Unaware (liftM e : DbM sizes α) := by
  intro s memory
  cases e <;> rfl

theorem Unaware.modify {g : Db sizes → Db sizes}
    (hg : ∀ s memory, g (s.withMemory memory) = (g s).withMemory memory) :
    Unaware (modify g : DbM sizes PUnit) := by
  intro s memory
  exact congrArg (EStateM.Result.ok _) (hg s memory)

theorem Unaware.get {f : Db sizes → DbM sizes β}
    (hsame : ∀ s memory, f (s.withMemory memory) = f s) (hf : ∀ s, Unaware (f s)) :
    Unaware (get >>= f) := by
  intro s memory
  rw [DbM.bind_get, DbM.bind_get, hsame]
  exact hf s s memory

theorem Unaware.bind (hx : Unaware x) (hf : ∀ a, Unaware (f a)) : Unaware (x >>= f) := by
  intro s memory
  have hlimited := hx s memory
  cases hxs : x s with
  | ok a s' =>
    rw [hxs] at hlimited
    rw [DbM.bind_ok hxs, DbM.bind_ok hlimited]
    exact hf a s' memory
  | error fault s' =>
    rw [hxs] at hlimited
    rw [DbM.bind_error hxs, DbM.bind_error hlimited]
    rfl

theorem Unaware.ite {c : Prop} [Decidable c] {y : DbM sizes α} (hx : c → Unaware x)
    (hy : ¬ c → Unaware y) : Unaware (if c then x else y) := by
  split
  case isTrue hc => exact hx hc
  case isFalse hc => exact hy hc

theorem Unaware.forM {f : α → DbM sizes PUnit} (hf : ∀ a, Unaware (f a)) (l : List α) :
    Unaware (l.forM f) := by
  induction l with
  | nil => exact .pure _
  | cons a l ih => exact .bind (hf a) fun _ => ih

/-- Whatever the program returns has the property. -/
def Gives (P : α → Prop) (x : DbM sizes α) : Prop := ∀ s a s', x s = .ok a s' → P a

theorem Gives.pure {P : α → Prop} {a : α} (ha : P a) : Gives P (pure a : DbM sizes α) := by
  rintro s b s' ⟨⟩
  exact ha

theorem Gives.bind {P : β → Prop} (hf : ∀ a, Gives P (f a)) : Gives P (x >>= f) := by
  intro s b s' h
  obtain ⟨a, s₁, -, hrest⟩ := DbM.of_bind_ok h
  exact hf a s₁ b s' hrest

theorem Gives.ite {P : α → Prop} {c : Prop} [Decidable c] {y : DbM sizes α} (hx : Gives P x)
    (hy : Gives P y) : Gives P (if c then x else y) := by
  split
  · exact hx
  · exact hy

theorem readInode_unaware (p : NodePtr) : Unaware (readInode p : DbM sizes _) :=
  .get (fun _ _ => rfl) fun _ => .lift _

theorem readKey_unaware (p : NodePtr) : Unaware (readKey p : DbM sizes _) :=
  .get (fun _ _ => rfl) fun _ => .bind (.lift _) fun _ => .pure _

theorem readSlot_unaware (sl : Slot) : Unaware (readSlot sl : DbM sizes _) :=
  .get (fun _ _ => rfl) fun _ => .lift _

theorem storeSlot_unaware (sl : Slot) (p : NodePtr) : Unaware (storeSlot sl p : DbM sizes _) :=
  .modify fun _ _ => rfl

theorem writeInode_unaware (p : NodePtr) (n : INode NodePtr) :
    Unaware (writeInode p n : DbM sizes _) :=
  .modify fun _ _ => rfl

theorem alloc_unaware (body : Body) : Unaware (alloc body : DbM sizes _) := by
  intro s memory
  rw [alloc_ok, alloc_ok]
  rfl

theorem free_unaware (p : NodePtr) : Unaware (free p : DbM sizes _) := by
  intro s memory
  rw [free, DbM.bind_get, DbM.bind_get]
  simp only [show (s.withMemory memory).tree = s.tree from rfl,
    show (s.withMemory memory).stats = s.stats from rfl]
  cases s.tree.deref p with
  | none => rfl
  | some body =>
    simp only
    cases s.stats.decrement (sizes.of body) body.type <;> rfl

theorem accountGrowingInode_unaware (type : NodeType) :
    Unaware (accountGrowingInode type : DbM sizes _) :=
  .bind (.modify fun _ _ => rfl) fun _ => .get (fun _ _ => rfl) fun _ => .lift _

theorem accountShrinkingInode_unaware (type : NodeType) :
    Unaware (accountShrinkingInode type : DbM sizes _) :=
  .bind (.modify fun _ _ => rfl) fun _ => .get (fun _ _ => rfl) fun _ => .lift _

theorem accountKeyPrefixSplit_unaware : Unaware (accountKeyPrefixSplit : DbM sizes Unit) :=
  .bind (.modify fun _ _ => rfl) fun _ => .get (fun _ _ => rfl) fun _ => .lift _

theorem leaveLastChild_unaware (node : NodePtr) (childToDelete : Nat) :
    Unaware (leaveLastChild node childToDelete : DbM sizes _) := by
  refine .bind (readInode_unaware _) fun inode => .bind (.lift _) ?_
  rintro ⟨keyByte, childToLeave⟩
  refine .ite ?_ fun _ => .pure _
  intro _
  exact .bind (readInode_unaware _) fun _ => .bind (.lift _) fun _ =>
    .bind (writeInode_unaware _ _) fun _ => .pure _

theorem deleteSubtree_unaware (fuel : Nat) (node : NodePtr) :
    Unaware (deleteSubtree fuel node : DbM sizes _) := by
  induction fuel generalizing node with
  | zero => exact .throw _
  | succ fuel ih =>
    rw [deleteSubtree]
    refine .ite ?_ fun _ => free_unaware _
    intro _
    exact .bind (readInode_unaware _) fun _ => .bind (.lift _) fun _ =>
      .bind (.forM ih _) fun _ => free_unaware _

theorem clear_unaware : Unaware (clear : DbM sizes Unit) := by
  refine .bind ?_ fun _ => .modify fun _ _ => rfl
  refine .get (fun _ _ => rfl) fun s => .bind ?_ fun _ => .get (fun _ _ => rfl) fun _ => .lift _
  cases s.tree.root with
  | none => exact .pure _
  | some root => exact deleteSubtree_unaware _ root

/-! ## 2. Programs that allocate -/

/-- Nothing but the next address has changed. -/
def Restored (s s' : Db sizes) : Prop := s.next ≤ s'.next ∧ s' = { s with next := s'.next }

/-- A part of an operation that began in `s₀` and has come to `s`: where it lacks memory it throws, and
    the `db` is what it was at the beginning; otherwise it does what it does with enough memory. -/
def Survives (s₀ : Db sizes) (x : DbM sizes α) (s : Db sizes) : Prop :=
  ∀ memory, x (s.withMemory memory) = limited memory (x s) ∨
    ∃ s', x (s.withMemory memory) = .error .badAlloc s' ∧ Restored (s₀.withMemory memory) s'

theorem Unaware.survives (hx : Unaware x) : Survives s₀ x s := fun memory => .inl (hx s memory)

theorem Survives.bind (hx : Survives s₀ x s)
    (hf : ∀ a s', x s = .ok a s' → Survives s₀ (f a) s') : Survives s₀ (x >>= f) s := by
  intro memory
  rcases hx memory with hlimited | ⟨s', hbad, hrestored⟩
  · cases hxs : x s with
    | ok a s' =>
      rw [hxs] at hlimited
      rw [DbM.bind_ok hxs, DbM.bind_ok hlimited]
      exact hf a s' hxs memory
    | error fault s' =>
      rw [hxs] at hlimited
      rw [DbM.bind_error hxs, DbM.bind_error hlimited]
      exact .inl rfl
  · exact .inr ⟨s', DbM.bind_error hbad, hrestored⟩

/-- A read does not change the state. -/
theorem Survives.read (hx : Unaware x) (hsame : ∀ a s', x s = .ok a s' → s' = s)
    (hf : ∀ a, Survives s₀ (f a) s) : Survives s₀ (x >>= f) s :=
  .bind hx.survives fun a s' hxs => hsame a s' hxs ▸ hf a

theorem Survives.lift {e : Except Fault α} (hf : ∀ a, Survives s₀ (f a) s) :
    Survives s₀ ((liftM e : DbM sizes α) >>= f) s := by
  refine .read (.lift e) ?_ hf
  intro a s' he
  cases e <;> cases he
  rfl

theorem Survives.ite {c : Prop} [Decidable c] {y : DbM sizes α} (hx : c → Survives s₀ x s)
    (hy : ¬ c → Survives s₀ y s) : Survives s₀ (if c then x else y) s := by
  split
  case isTrue hc => exact hx hc
  case isFalse hc => exact hy hc

theorem Survives.get {f : Db sizes → DbM sizes β}
    (hsame : ∀ memory, f (s.withMemory memory) = f s) (hf : Survives s₀ (f s) s) :
    Survives s₀ (get >>= f) s := by
  intro memory
  rw [DbM.bind_get, DbM.bind_get, hsame]
  exact hf memory

theorem Survives.readInode {p : NodePtr} {f : INode NodePtr → DbM sizes β}
    (hf : ∀ n, Survives s₀ (f n) s) : Survives s₀ (readInode p >>= f) s :=
  .read (readInode_unaware p) (fun _ _ h => (of_readInode_ok h).2) hf

theorem Survives.readKey {p : NodePtr} {f : List UInt8 → DbM sizes β}
    (hf : ∀ k, Survives s₀ (f k) s) : Survives s₀ (readKey p >>= f) s := by
  refine .read (readKey_unaware p) ?_ hf
  intro k s' h
  rw [Db.readKey, DbM.bind_get] at h
  obtain ⟨leaf, -, hpure⟩ := DbM.of_lift_ok h
  cases hpure
  rfl

theorem of_readSlot_ok {sl : Slot} {p : NodePtr} (h : Db.readSlot sl s = .ok p s') : s' = s := by
  rw [Db.readSlot, DbM.bind_get] at h
  cases hslot : s.tree.readSlot sl <;> rw [hslot] at h <;> cases h
  rfl

theorem Survives.readSlot {sl : Slot} {f : NodePtr → DbM sizes β}
    (hf : ∀ p, Survives s₀ (f p) s) : Survives s₀ (readSlot sl >>= f) s := by
  refine .read (readSlot_unaware sl) ?_ hf
  exact fun _ _ h => of_readSlot_ok h

/-- An allocation whose caller has a new leaf to free, or none. -/
theorem Survives.allocate {newLeaf : Option NodePtr} (type : NodeType)
    (hsupplied : ∀ type, s.memory type = true)
    (hfree : ∀ memory, ∃ s', newLeaf.forM free (s.withMemory memory) = .ok () s' ∧
      Restored (s₀.withMemory memory) s') : Survives s₀ (allocate type newLeaf) s := by
  intro memory
  rw [allocate_ok (hsupplied type)]
  by_cases hmem : memory type = true
  · exact .inl (allocate_ok (s := s.withMemory memory) hmem newLeaf)
  · obtain ⟨s', hs', hrestored⟩ := hfree memory
    refine .inr ⟨s', ?_, hrestored⟩
    rw [Db.allocate, DbM.bind_get]
    simp only [show (s.withMemory memory).memory type = false by simpa [withMemory] using hmem]
    exact DbM.bind_ok hs'

theorem allocate_survives (hsupplied : ∀ type, s.memory type = true) (type : NodeType) :
    Survives s (allocate type none) s :=
  .allocate type hsupplied fun memory => ⟨s.withMemory memory, rfl, Nat.le_refl _, rfl⟩

section Operations

variable {κ : Type} [LawfulArtKey κ] {k : κ} {v : List UInt8}

/-- The new leaf is the last node that has been allocated. -/
theorem allocate_survives_leaf (hacc : Accounted sizes s.tree s.next s.stats)
    (hsupplied : ∀ type, s.memory type = true) (type : NodeType) :
    Survives s (allocate type (some ⟨s.next, .leaf⟩)) (s.withLeaf k v) := by
  refine .allocate type hsupplied fun memory => ?_
  have hmade : Accounted sizes (s.withLeaf k v).tree (s.withLeaf k v).next (s.withLeaf k v).stats :=
    hacc.alloc _
  refine ⟨_, free_ok (s := (s.withLeaf k v).withMemory memory) hmade (withLeaf_deref_leaf s k v),
    Nat.le_succ _, ?_⟩
  have htree := s.tree.set_none_set (.leaf (ArtKey.getKeyView k) v) (hacc.fresh (Nat.le_refl _))
  simp only [freed, withMemory, withLeaf, allocated, htree, Accounted.uncounted_counted]

theorem makeDbLeafPtr_survives (hsupplied : ∀ type, s.memory type = true) :
    Survives s (makeDbLeafPtr k v) s := by
  rw [makeDbLeafPtr]
  split
  · exact (Unaware.throw _).survives
  · exact .bind (allocate_survives hsupplied .leaf) fun _ _ _ => (alloc_unaware _).survives

theorem of_makeDbLeafPtr_ok {p : NodePtr} (hsupplied : ∀ type, s.memory type = true)
    (h : makeDbLeafPtr k v s = .ok p s') : p = ⟨s.next, .leaf⟩ ∧ s' = s.withLeaf k v := by
  cases hfits : leafRefusal k v with
  | none =>
    rw [makeDbLeafPtr_ok hfits (hsupplied .leaf)] at h
    cases h
    exact ⟨rfl, rfl⟩
  | some what =>
    rw [makeDbLeafPtr_error hfits] at h
    cases h

/-- A leaf is made, and then a part of the insertion that may lack memory for another node. -/
theorem Survives.makeDbLeafPtr {f : NodePtr → DbM sizes β} (hsupplied : ∀ type, s.memory type = true)
    (hf : Survives s (f ⟨s.next, .leaf⟩) (s.withLeaf k v)) :
    Survives s (makeDbLeafPtr k v >>= f) s := by
  refine .bind (makeDbLeafPtr_survives hsupplied) fun p s' h => ?_
  obtain ⟨rfl, rfl⟩ := of_makeDbLeafPtr_ok hsupplied h
  exact hf

/-- A round of the loop that goes on with a child has changed nothing. -/
theorem of_addOrChooseSubtree_child {node : NodePtr} {keyByte : UInt8} {depth : Nat}
    {nodeInParent child : Slot}
    (h : addOrChooseSubtree node keyByte k v depth nodeInParent s = .ok (some child) s') : s' = s := by
  rw [addOrChooseSubtree] at h
  obtain ⟨inode, s₁, hread, hrest⟩ := DbM.of_bind_ok h
  obtain rfl := (of_readInode_ok hread).2
  cases hfind : inode.findChild keyByte with
  | some r =>
    rw [hfind] at hrest
    cases hrest
    rfl
  | none =>
  rw [hfind] at hrest
  -- The other branches add a leaf and return no child.
  have hnone : none ≠ some child := (Option.some_ne_none child).symm
  refine absurd rfl ((?_ : Gives (· ≠ some child) _) _ _ _ hrest)
  exact .bind fun leaf => .ite
    (.bind fun _ => .bind fun _ => .bind fun _ => .pure hnone)
    (.bind fun _ => .bind fun _ => .bind fun _ => .bind fun _ => .pure hnone)

section Insertion

variable (hacc : Accounted sizes s.tree s.next s.stats) (hsupplied : ∀ type, s.memory type = true)
include hacc hsupplied

theorem createLeafSplit_survives (existingKey : List UInt8) (remainingKey : κ) (depth : Nat)
    (leaf : NodePtr) :
    Survives s (createLeafSplit existingKey remainingKey depth leaf ⟨s.next, .leaf⟩)
      (s.withLeaf k v) :=
  .bind (allocate_survives_leaf hacc hsupplied .i4) fun _ _ _ => Unaware.survives <|
    .bind (.lift _) fun _ => .bind (.lift _) fun _ => alloc_unaware _

theorem createPrefixSplit_survives (sourceNode : NodePtr) (sharedPrefixLen depth : Nat) :
    Survives s (createPrefixSplit sourceNode sharedPrefixLen depth ⟨s.next, .leaf⟩)
      (s.withLeaf k v) := by
  refine .bind (allocate_survives_leaf hacc hsupplied .i4) fun _ _ _ => Unaware.survives ?_
  refine .bind (readInode_unaware _) fun _ => .bind (.lift _) fun _ =>
    .bind (readKey_unaware _) fun _ => .bind (.lift _) ?_
  rintro ⟨node, cut⟩
  exact .bind (writeInode_unaware _ _) fun _ => alloc_unaware _

theorem createLarger_survives (sourceNode : NodePtr) (depth : Nat) :
    Survives s (createLarger sourceNode ⟨s.next, .leaf⟩ depth) (s.withLeaf k v) :=
  .bind (allocate_survives_leaf hacc hsupplied _) fun _ _ _ => Unaware.survives <|
    .bind (readInode_unaware _) fun _ => .bind (readKey_unaware _) fun _ => .bind (.lift _) fun _ =>
      .bind (.lift _) fun _ => .bind (alloc_unaware _) fun _ => .bind (free_unaware _) fun _ => .pure _

theorem addOrChooseSubtree_survives (node : NodePtr) (keyByte : UInt8) (k : κ) (v : List UInt8)
    (depth : Nat) (nodeInParent : Slot) :
    Survives s (addOrChooseSubtree node keyByte k v depth nodeInParent) s := by
  refine .readInode fun inode => ?_
  split
  · exact (Unaware.pure _).survives
  refine .makeDbLeafPtr hsupplied (.ite (fun _ => ?_) fun _ => Unaware.survives ?_)
  · refine .bind (createLarger_survives hacc hsupplied node depth) fun larger _ _ => ?_
    exact Unaware.survives <| .bind (storeSlot_unaware _ _) fun _ =>
      .bind (accountGrowingInode_unaware _) fun _ => .pure _
  · exact .bind (readKey_unaware _) fun _ => .bind (.lift _) fun _ => .bind (.lift _) fun _ =>
      .bind (writeInode_unaware _ _) fun _ => .pure _

theorem insertLoop_survives (fuel : Nat) (sl : Slot) (depth : Nat) (rem : κ) :
    Survives s (insertLoop k v fuel sl depth rem) s := by
  induction fuel generalizing sl depth rem with
  | zero => exact (Unaware.throw _).survives
  | succ fuel ih =>
    refine .readSlot fun node => .ite (fun _ => ?_) fun _ => ?_
    · refine .readKey fun existingKey => .ite (fun _ => (Unaware.pure _).survives) fun _ => ?_
      refine .makeDbLeafPtr hsupplied ?_
      refine .bind (createLeafSplit_survives hacc hsupplied _ _ _ _) fun newNode _ _ => ?_
      exact Unaware.survives <| .bind (storeSlot_unaware _ _) fun _ =>
        .bind (accountGrowingInode_unaware _) fun _ => .pure _
    · refine .readInode fun inode => .ite (fun _ => ?_) fun _ => ?_
      · refine .makeDbLeafPtr hsupplied ?_
        refine .bind (createPrefixSplit_survives hacc hsupplied _ _ _) fun newNode _ _ => ?_
        exact Unaware.survives <| .bind (storeSlot_unaware _ _) fun _ =>
          .bind (accountGrowingInode_unaware _) fun _ =>
          .bind accountKeyPrefixSplit_unaware fun _ => .pure _
      · refine .lift fun _ => .lift fun rem => .lift fun byte => ?_
        refine .bind (addOrChooseSubtree_survives hacc hsupplied _ _ _ _ _ _) fun r s' h => ?_
        cases r with
        | none => exact (Unaware.pure _).survives
        | some child =>
          obtain rfl := of_addOrChooseSubtree_child h
          exact .lift fun rem => ih child _ rem

theorem insertInternal_survives : Survives s (insertInternal k v) s := by
  refine .get (fun _ => rfl) (.ite (fun _ => ?_) fun _ => insertLoop_survives hacc hsupplied _ _ _ _)
  refine .makeDbLeafPtr hsupplied (Unaware.survives ?_)
  exact .bind (storeSlot_unaware _ _) fun _ => .pure _

end Insertion

section Refused

variable {what : String} (hwhat : leafRefusal k v = some what)
include hwhat

/-- A leaf that is refused needs no memory. -/
theorem makeDbLeafPtr_refused (f : NodePtr → DbM sizes β) :
    (makeDbLeafPtr k v >>= f) = throw (.lengthError what) := by
  funext s
  rw [DbM.bind_error (makeDbLeafPtr_error hwhat s)]
  rfl

theorem addOrChooseSubtree_refused (node : NodePtr) (keyByte : UInt8) (depth : Nat)
    (nodeInParent : Slot) :
    Unaware (addOrChooseSubtree node keyByte k v depth nodeInParent : DbM sizes _) := by
  refine .bind (readInode_unaware _) fun inode => ?_
  split
  · exact .pure _
  · rw [makeDbLeafPtr_refused hwhat]
    exact .throw _

theorem insertLoop_refused (fuel : Nat) (sl : Slot) (depth : Nat) (rem : κ) :
    Unaware (insertLoop k v fuel sl depth rem : DbM sizes _) := by
  induction fuel generalizing sl depth rem with
  | zero => exact .throw _
  | succ fuel ih =>
    refine .bind (readSlot_unaware _) fun node => .ite (fun _ => ?_) fun _ => ?_
    · refine .bind (readKey_unaware _) fun existingKey => .ite (fun _ => .pure _) fun _ => ?_
      rw [makeDbLeafPtr_refused hwhat]
      exact .throw _
    · refine .bind (readInode_unaware _) fun inode => .ite (fun _ => ?_) fun _ => ?_
      · rw [makeDbLeafPtr_refused hwhat]
        exact .throw _
      · refine .bind (.lift _) fun _ => .bind (.lift _) fun rem => .bind (.lift _) fun byte => ?_
        refine .bind (addOrChooseSubtree_refused hwhat _ _ _ _) fun r => ?_
        cases r with
        | none => exact .pure _
        | some child => exact .bind (.lift _) fun rem => ih child _ rem

theorem insertInternal_refused : Unaware (insertInternal k v : DbM sizes Bool) := by
  refine .get (fun _ _ => rfl) fun s => .ite (fun _ => ?_) fun _ => insertLoop_refused hwhat _ _ _ _
  rw [makeDbLeafPtr_refused hwhat]
  exact .throw _

end Refused

/-- A round of the loop that goes on with a child has changed nothing. -/
theorem of_removeOrChooseSubtree_child {node : NodePtr} {keyByte : UInt8} {nodeInParent child : Slot}
    (h : removeOrChooseSubtree node keyByte k nodeInParent s = .ok (some (some child)) s') : s' = s := by
  rw [removeOrChooseSubtree] at h
  obtain ⟨inode, s₁, hread, hrest⟩ := DbM.of_bind_ok h
  obtain rfl := (of_readInode_ok hread).2
  cases hfind : inode.findChild keyByte with
  | none =>
    rw [hfind] at hrest
    cases hrest
  | some r =>
  rw [hfind] at hrest
  obtain ⟨p, s₂, hslot, hchild⟩ := DbM.of_bind_ok hrest
  obtain rfl := of_readSlot_ok hslot
  split at hchild
  · cases hchild
    rfl
  -- The other branches find no leaf with the key, or remove it.
  have hnone : none ≠ some (some child) := (Option.some_ne_none _).symm
  have hremoved : some none ≠ some (some child) := fun heq =>
    Option.some_ne_none child (Option.some_inj.mp heq).symm
  refine absurd rfl ((?_ : Gives (· ≠ some (some child)) _) _ _ _ hchild)
  exact .bind fun key => .ite (.pure hnone) <| .ite
    (.ite (.bind fun _ => .bind fun _ => .bind fun _ => .bind fun _ => .bind fun _ => .pure hremoved)
      (.bind fun _ => .bind fun _ => .bind fun _ => .bind fun _ => .bind fun _ => .bind fun _ =>
        .bind fun _ => .pure hremoved))
    (.bind fun _ => .bind fun _ => .bind fun _ => .pure hremoved)

theorem removeOrChooseSubtree_survives (hsupplied : ∀ type, s.memory type = true) (node : NodePtr)
    (keyByte : UInt8) (k : κ) (nodeInParent : Slot) :
    Survives s (removeOrChooseSubtree node keyByte k nodeInParent) s := by
  refine .readInode fun inode => ?_
  split
  · exact (Unaware.pure _).survives
  refine .readSlot fun child => .ite (fun _ => (Unaware.pure _).survives) fun _ => ?_
  refine .readKey fun key => .ite (fun _ => (Unaware.pure _).survives) fun _ =>
    .ite (fun _ => ?_) fun _ => ?_
  · refine .ite (fun _ => Unaware.survives ?_) fun _ => ?_
    · exact .bind (leaveLastChild_unaware _ _) fun _ => .bind (free_unaware _) fun _ =>
        .bind (storeSlot_unaware _ _) fun _ => .bind (free_unaware _) fun _ =>
        .bind (accountShrinkingInode_unaware _) fun _ => .pure _
    · refine .bind (allocate_survives hsupplied _) fun _ _ _ => Unaware.survives ?_
      exact .bind (.lift _) fun _ => .bind (alloc_unaware _) fun _ => .bind (free_unaware _) fun _ =>
        .bind (free_unaware _) fun _ => .bind (storeSlot_unaware _ _) fun _ =>
        .bind (accountShrinkingInode_unaware _) fun _ => .pure _
  · exact Unaware.survives <| .bind (.lift _) fun _ => .bind (writeInode_unaware _ _) fun _ =>
      .bind (free_unaware _) fun _ => .pure _

theorem removeLoop_survives (hsupplied : ∀ type, s.memory type = true) (fuel : Nat) (sl : Slot)
    (rem : κ) : Survives s (removeLoop k fuel sl rem) s := by
  induction fuel generalizing sl rem with
  | zero => exact (Unaware.throw _).survives
  | succ fuel ih =>
    refine .readSlot fun node => .lift fun _ => .readInode fun inode => .ite (fun _ => ?_) fun _ => ?_
    · exact (Unaware.pure _).survives
    refine .lift fun _ => .lift fun rem => .lift fun byte => ?_
    refine .bind (removeOrChooseSubtree_survives hsupplied _ _ _ _) fun r s' h => ?_
    rcases r with _ | _ | child
    · exact (Unaware.pure _).survives
    · exact (Unaware.pure _).survives
    · obtain rfl := of_removeOrChooseSubtree_child h
      exact .lift fun rem => ih child rem

theorem removeInternal_survives (hsupplied : ∀ type, s.memory type = true) :
    Survives s (removeInternal k) s := by
  refine .get (fun _ => rfl) ?_
  split
  · exact (Unaware.pure _).survives
  refine .ite (fun _ => Unaware.survives ?_) fun _ => removeLoop_survives hsupplied _ _ _
  refine .bind (readKey_unaware _) fun key => .ite (fun _ => ?_) fun _ => .pure _
  exact .bind (.modify fun _ _ => rfl) fun _ => .bind (free_unaware _) fun _ => .pure _

/-! ## 3. Calls -/

variable {E : Type} {encode : E → κ} {K : Set (List UInt8)} {path : NodePtr → List UInt8}
  {lost : NodeType → Nat} {m : RefMap (BitVec 64)}

theorem call_refused {c : Call E} {what : String} (hwhat : c.refusal encode = some what) :
    Unaware (call encode c : DbM sizes Output) := by
  cases c with
  | insert k v => exact .bind (insertInternal_refused hwhat) fun _ => .pure _
  | remove | get | empty | clear => cases hwhat

/-- A call during which there is memory for these node classes only. -/
def stepWith (encode : E → κ) (memory : NodeType → Bool) (c : Call E) (s : Db sizes) :
    Except Fault Output × Db sizes :=
  let (r, s') := step encode c (s.withMemory memory)
  (r, s'.withMemory s.memory)

/-- A call, whatever there is memory for, and what it returns or throws. -/
def Performs (encode : E → κ) (s : Db sizes) (e : Call E × Except Fault Output) (s' : Db sizes) :
    Prop :=
  ∃ memory, stepWith encode memory e.1 s = (e.2, s')

theorem call_survives (encode : E → κ) (h : s.Inv K path lost) (c : Call E) :
    Survives s (call encode c) s := by
  cases c with
  | insert k v =>
    exact .bind (insertInternal_survives h.accounted h.supplied) fun _ _ _ => (Unaware.pure _).survives
  | remove k =>
    exact .bind (removeInternal_survives h.supplied) fun _ _ _ => (Unaware.pure _).survives
  | get k => exact .get (fun _ => rfl) (.lift fun _ => (Unaware.pure _).survives)
  | empty => exact .get (fun _ => rfl) (Unaware.pure _).survives
  | clear => exact .bind clear_unaware.survives fun _ _ _ => (Unaware.pure _).survives

theorem withMemory_eq (hsupplied : ∀ type, s.memory type = true)
    (hsupplied' : ∀ type, s'.memory type = true) : s'.withMemory s.memory = s' := by
  have hmem : s.memory = s'.memory := funext fun type => (hsupplied type).trans (hsupplied' type).symm
  rw [withMemory, hmem]

theorem stepWith_of_limited {memory : NodeType → Bool} {c : Call E}
    (hlimited : call encode c (s.withMemory memory) = limited memory (call encode c s)) :
    stepWith encode memory c s = ((step encode c s).1, (step encode c s).2.withMemory s.memory) := by
  rw [stepWith, step, hlimited, step]
  cases call encode c s <;> rfl

/-- A call does what it does with enough memory, or fails for lack of it. -/
theorem stepWith_cases (encode : E → κ) (h : s.Inv K path lost) (memory : NodeType → Bool)
    (c : Call E) :
    stepWith encode memory c s =
        ((step encode c s).1, (step encode c s).2.withMemory s.memory) ∨
      ∃ s', stepWith encode memory c s = (.error .badAlloc, s') ∧ Restored s s' := by
  rcases call_survives encode h c memory with hlimited | ⟨s', hbad, hle, hs'⟩
  · exact .inl (stepWith_of_limited hlimited)
  · right
    rw [stepWith, step, hbad, hs']
    exact ⟨_, rfl, hle, rfl⟩

end Operations

/-! ## 4. 64-bit keys -/

section U64

variable {K K' : Set (List UInt8)} {path path' : NodePtr → List UInt8} {lost lost' : NodeType → Nat}
  {m : RefMap (BitVec 64)}

/-- The same bindings, in nodes that count the same. -/
structure Alike (t t' : Tree) (st st' : Stats) : Prop where
  binds : ∀ k v, t.Binds k v ↔ t'.Binds k v
  nodeCounts : st.nodeCounts = st'.nodeCounts
  currentMemoryUse : st.currentMemoryUse = st'.currentMemoryUse

theorem Inv.alike {sizes' : Sizes} {st st' : Stats} (h : s.Inv K path lost) (h' : s'.Inv K' path' lost')
    (hsame : ∀ k v, s.tree.Binds k v ↔ s'.tree.Binds k v)
    (hacc : Accounted sizes' s.tree s.next st) (hacc' : Accounted sizes' s'.tree s'.next st') :
    Alike s.tree s'.tree st st' := by
  obtain ⟨-, htotal⟩ := h.same_tree h' hsame
  refine ⟨hsame, ?_, ?_⟩
  · funext type
    rw [hacc.counts, hacc'.counts]
    exact htotal _ (blind_countType type)
  · rw [hacc.memory, hacc'.memory]
    exact htotal _ blind_sizes

/-- One call of a `db<std::uint64_t>` and of the map it represents. -/
theorem agrees_u64 (h : s.Inv u64Views path lost) (hrep : Represents U64Key.make s m)
    (c : Call (BitVec 64)) :
    Agrees U64Key.make u64Views (step U64Key.make c s) (RefMap.step (fun _ v => valueRefusal v) c m) := by
  have hspaced : RefMap.Along (fun k v => leafRefusal (U64Key.make k) v)
      (StaysSpaced U64Key.make fun k v => leafRefusal (U64Key.make k) v) [c] m :=
    along_short (fun c _ => keyIn_u64 (fun k => Nat.le_of_eq (view_mem_u64Views k)) c)
      fun k _ => Nat.le_of_eq (view_mem_u64Views k)
  have hagrees := agrees_step view_u64_injective h u64Views_prefixFree hrep c
    (keyIn_u64 view_mem_u64Views c) hspaced.1
  simpa only [leafRefusal_u64] using hagrees

/-- What a call does has nothing to do with the addresses that are given out next. -/
theorem Inv.step_restored (h : s.Inv u64Views path lost) {next : Nat} (hle : s.next ≤ next)
    (c : Call (BitVec 64)) :
    (step U64Key.make c ({ s with next } : Db sizes)).1 = (step U64Key.make c s).1 ∧
      ∀ k v, (step U64Key.make c ({ s with next } : Db sizes)).2.tree.Binds k v ↔
        (step U64Key.make c s).2.tree.Binds k v := by
  obtain ⟨m, hrep⟩ := h.represents_u64
  have hagrees := agrees_u64 h hrep c
  have hagrees' := agrees_u64 (h.restored hle) (m := m) ⟨hrep.binds_iff, hrep.onto⟩ c
  refine ⟨hagrees'.result.trans hagrees.result.symm, fun k v => ?_⟩
  rw [hagrees'.represents.binds_eq, hagrees.represents.binds_eq]

/-- With memory for all node classes a call throws only for a value that is too long. -/
theorem Inv.step_error_u64 (h : s.Inv u64Views path lost) {c : Call (BitVec 64)} {e : Fault}
    (hstep : (step U64Key.make c s).1 = .error e) :
    ∃ what, c.refusal U64Key.make = some what ∧ e = .lengthError what ∧
      (step U64Key.make c s).2 = s := by
  cases c with
  | insert k v =>
    have hresult := insertInternal_spec (v := v) h u64Views_prefixFree (view_mem_u64Views k)
      fun _ => h.tree.partsSoon u64Views_prefixFree (view_mem_u64Views k) (h.spaced_u64 fun x hx => by
        rcases hx with rfl | hx
        · exact .inr (view_mem_u64Views k)
        · exact .inl hx)
    simp only [step, call] at hstep ⊢
    generalize hrun : insertInternal (U64Key.make k) v s = result at hresult
    cases hresult with
    | «exists» _ | added _ _ _ _ =>
      rw [DbM.bind_ok hrun] at hstep
      cases hstep
    | refused _ hwhat =>
      rw [DbM.bind_error hrun] at hstep ⊢
      cases hstep
      exact ⟨_, hwhat, rfl, rfl⟩
  | remove k =>
    have hresult := removeInternal_spec h (h.tree.stays u64Views_prefixFree (view_mem_u64Views k))
      (h.tree.joinsFit (h.spaced_u64 fun x hx => .inl hx.1))
    simp only [step, call] at hstep
    generalize hrun : removeInternal (U64Key.make k) s = result at hresult
    cases hresult with
    | absent _ | removed _ _ _ =>
      rw [DbM.bind_ok hrun] at hstep
      cases hstep
  | get k =>
    obtain ⟨r, hr, -⟩ := getInternal_spec h.tree
      (h.tree.stays u64Views_prefixFree (view_mem_u64Views k))
    rw [step, call, DbM.bind_get, DbM.bind_lift hr] at hstep
    cases hstep
  | empty => cases hstep
  | clear =>
    obtain ⟨s', hclear, -⟩ := h.clear_spec
    rw [step, call, DbM.bind_ok hclear] at hstep
    cases hstep

/-- A call, whatever there is memory for: it does what it does with enough memory, or it throws
    `std::bad_alloc` where that one returns, and leaves the `db` as it was. -/
theorem Performs.cases_u64 {e : Call (BitVec 64) × Except Fault Output}
    (hperforms : Performs U64Key.make s e s') (h : s.Inv u64Views path lost) :
    (e.2, s') = step U64Key.make e.1 s ∨
      (e.2 = .error .badAlloc ∧ Restored s s' ∧ ∃ r, (step U64Key.make e.1 s).1 = .ok r) := by
  obtain ⟨m, hrep⟩ := h.represents_u64
  obtain ⟨path', lost', h'⟩ := (agrees_u64 h hrep e.1).inv
  have hsame : (step U64Key.make e.1 s).2.withMemory s.memory = (step U64Key.make e.1 s).2 :=
    withMemory_eq h.supplied h'.supplied
  obtain ⟨memory, hperforms⟩ := hperforms
  rcases stepWith_cases U64Key.make h memory e.1 with hfull | ⟨s₁, hbad, hrestored⟩
  · left
    rw [← hperforms, hfull, hsame]
  cases hfull : (step U64Key.make e.1 s).1 with
  | ok r =>
    right
    obtain ⟨hresult, rfl⟩ := Prod.mk.inj (hperforms.symm.trans hbad)
    exact ⟨hresult, hrestored, r, rfl⟩
  | error fault =>
    -- The value is refused before any memory is asked for.
    obtain ⟨what, hwhat, -⟩ := h.step_error_u64 hfull
    left
    rw [← hperforms, stepWith_of_limited (call_refused hwhat s memory), hsame]

theorem Performs.inv_u64 {e : Call (BitVec 64) × Except Fault Output}
    (hperforms : Performs U64Key.make s e s') (h : s.Inv u64Views path lost) :
    ∃ path' lost', s'.Inv u64Views path' lost' := by
  rcases hperforms.cases_u64 h with heq | ⟨-, ⟨hle, hs'⟩, -⟩
  · obtain ⟨m, hrep⟩ := h.represents_u64
    obtain ⟨path', lost', h'⟩ := (agrees_u64 h hrep e.1).inv
    rw [← heq] at h'
    exact ⟨path', lost', h'⟩
  · rw [hs']
    exact ⟨path, lost, h.restored hle⟩

theorem inv_of_run_u64 {events : List (Call (BitVec 64) × Except Fault Output)}
    (hrun : Run (Performs U64Key.make) (Db.empty sizes) events s) :
    ∃ path lost, s.Inv u64Views path lost :=
  hrun.invariant (I := fun s => ∃ path lost, s.Inv u64Views path lost)
    (fun ⟨_, _, h⟩ hstep => hstep.inv_u64 h) ⟨fun _ => [], _, Inv.empty _⟩

/-- After a call that threw `e`: the exception is one for a value that is too long or for a lack of
    memory, nothing but the next address has changed, and where memory was lacking the same call
    succeeds now, as it would have before. -/
structure Undone (c : Call (BitVec 64)) (e : Fault) (s s' : Db sizes) : Prop where
  exception : e = .badAlloc ∨ ∃ what, c.refusal U64Key.make = some what ∧ e = .lengthError what
  restored : Restored s s'
  retried : e = .badAlloc → ∃ r, (step U64Key.make c s).1 = .ok r ∧
    (step U64Key.make c s').1 = .ok r ∧
    Alike (step U64Key.make c s).2.tree (step U64Key.make c s').2.tree
      (step U64Key.make c s).2.stats (step U64Key.make c s').2.stats

theorem Performs.undone {c : Call (BitVec 64)} {e : Fault}
    (hperforms : Performs U64Key.make s (c, .error e) s') (h : s.Inv u64Views path lost) :
    Undone c e s s' := by
  rcases hperforms.cases_u64 h with heq | ⟨hbad, hrestored, r, hr⟩
  · obtain ⟨hresult, hstate⟩ := Prod.mk.inj heq
    obtain ⟨what, hwhat, rfl, hsame⟩ := h.step_error_u64 hresult.symm
    obtain rfl : s' = s := hstate.trans hsame
    exact ⟨.inr ⟨what, hwhat, rfl⟩, ⟨Nat.le_refl _, rfl⟩, nofun⟩
  · obtain rfl := Except.error.inj hbad
    refine ⟨.inl rfl, hrestored, fun _ => ⟨r, hr, ?_⟩⟩
    obtain ⟨hle, hs'⟩ := hrestored
    obtain ⟨m, hrep⟩ := h.represents_u64
    obtain ⟨hresult, hbinds⟩ := h.step_restored hle c
    obtain ⟨path₁, lost₁, h₁⟩ := (agrees_u64 h hrep c).inv
    obtain ⟨m', hrep'⟩ := (h.restored hle).represents_u64
    obtain ⟨path₂, lost₂, h₂⟩ := (agrees_u64 (h.restored hle) hrep' c).inv
    rw [hs', hresult]
    exact ⟨hr, h₁.alike h₂ (fun k v => (hbinds k v).symm) h₁.accounted h₂.accounted⟩

end U64

end Db

end Unodb
