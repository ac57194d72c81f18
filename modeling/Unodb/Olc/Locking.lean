import Mathlib.Data.Finset.Card
import Unodb.Olc.System

/-!
# The locking discipline of `olc_db`

Every attempt takes and gives back its write locks by itself, and does not wait while it has any.
-/

namespace Unodb

/-! ## 1. Failures under a lock -/

/-- A computation that throws no exception. -/
def NoThrow {α : Type} (x : Except Fault α) : Prop := FailsOnly (fun e => e.isException = false) x

theorem noThrow_assertThat {c : Prop} [Decidable c] : NoThrow (assertThat c) := .ite .ok (.error rfl)

theorem noThrow_inBounds {α : Type} {x : Option α} : NoThrow (inBounds x) := by
  cases x with
  | none => exact .error rfl
  | some a => exact .ok

theorem noThrow_viewByte (key : List UInt8) (i : Nat) : NoThrow (viewByte key i) := by
  unfold viewByte
  cases key[i]? with
  | some b => exact .ok
  | none => exact .error rfl

namespace INode

variable {P : Type}

theorem noThrow_addTwoToEmpty (keyPrefix : KeyPrefix) (key1 key2 : UInt8) (child1 child2 : P) :
    NoThrow (addTwoToEmpty keyPrefix key1 child1 key2 child2) :=
  .bind noThrow_assertThat fun _ => .pure

theorem noThrow_addToNonfull (n : INode P) (child : P) (keyByte : UInt8) (childrenCount : Nat) :
    NoThrow (n.addToNonfull child keyByte childrenCount) := by
  refine .bind noThrow_assertThat fun _ => ?_
  split
  · exact .bind noThrow_inBounds fun _ => .bind noThrow_assertThat fun _ =>
      .bind noThrow_inBounds fun _ => .bind noThrow_inBounds fun _ =>
      .bind noThrow_inBounds fun _ => .bind noThrow_assertThat fun _ => .pure
  · exact .bind noThrow_inBounds fun _ => .bind noThrow_assertThat fun _ =>
      .bind noThrow_assertThat fun _ => .bind noThrow_inBounds fun _ =>
      .bind noThrow_inBounds fun _ => .bind noThrow_inBounds fun _ =>
      .bind noThrow_assertThat fun _ => .pure
  · exact .bind noThrow_assertThat fun _ => .bind noThrow_inBounds fun _ => .pure
  · exact .bind noThrow_assertThat fun _ => .pure

theorem noThrow_copyInto256 (childIndexes : UInt8 → UInt8) (pointers : List (Option P))
    (is : List UInt8) (childrenCopied : Nat) (children : UInt8 → Option P) :
    NoThrow (copyInto256 childIndexes pointers is childrenCopied children) := by
  induction is generalizing childrenCopied children with
  | nil => exact .error rfl
  | cons i is ih =>
    rw [copyInto256]
    exact .ite (ih _ _) (.bind noThrow_inBounds fun _ => .ite .pure (ih _ _))

theorem noThrow_grow (n : INode P) (child : P) (keyByte : UInt8) : NoThrow (n.grow child keyByte) := by
  unfold grow
  split
  · exact .bind noThrow_assertThat fun _ => .bind noThrow_inBounds fun _ =>
      .bind noThrow_inBounds fun _ => .bind noThrow_inBounds fun _ =>
      .bind noThrow_inBounds fun _ => .bind noThrow_inBounds fun _ =>
      .bind noThrow_inBounds fun _ => .pure
  · exact .bind noThrow_inBounds fun _ => .bind noThrow_inBounds fun _ =>
      .bind noThrow_assertThat fun _ => .bind noThrow_inBounds fun _ => .pure
  · exact .bind (noThrow_copyInto256 _ _ _ _ _) fun _ => .bind noThrow_assertThat fun _ => .pure
  · exact .throw rfl

theorem noThrow_remove (n : INode P) (childIndex : Nat) : NoThrow (n.remove childIndex) := by
  unfold remove
  split
  · exact .bind noThrow_assertThat fun _ => .bind noThrow_inBounds fun _ =>
      .bind noThrow_assertThat fun _ => .bind noThrow_inBounds fun _ =>
      .bind noThrow_inBounds fun _ => .bind noThrow_inBounds fun _ =>
      .bind noThrow_inBounds fun _ => .bind noThrow_assertThat fun _ => .pure
  · exact .bind noThrow_assertThat fun _ => .bind noThrow_inBounds fun _ =>
      .bind noThrow_assertThat fun _ => .bind noThrow_inBounds fun _ =>
      .bind noThrow_inBounds fun _ => .bind noThrow_inBounds fun _ =>
      .bind noThrow_inBounds fun _ => .bind noThrow_assertThat fun _ => .pure
  · exact .bind noThrow_assertThat fun _ => .bind noThrow_inBounds fun _ => .pure
  · exact .pure

theorem noThrow_copyInto16 (childIndexes : UInt8 → UInt8) (pointers : List (Option P))
    (is keys : List UInt8) (children : List (Option P)) :
    NoThrow (copyInto16 childIndexes pointers is keys children) := by
  induction is generalizing keys children with
  | nil => exact .error rfl
  | cons i is ih =>
    rw [copyInto16]
    exact .ite (.bind noThrow_inBounds fun _ => .bind noThrow_inBounds fun _ =>
      .bind noThrow_assertThat fun _ => .bind noThrow_inBounds fun _ => .ite .pure (ih _ _))
      (ih _ _)

theorem noThrow_copyInto48 (pointers : UInt8 → Option P) (is : List UInt8)
    (childIndexes : UInt8 → UInt8) (children : List (Option P)) :
    NoThrow (copyInto48 pointers is childIndexes children) := by
  induction is generalizing childIndexes children with
  | nil => exact .ok
  | cons i is ih =>
    rw [copyInto48]
    split
    · exact ih _ _
    · exact .bind noThrow_inBounds fun _ => .ite .pure (ih _ _)

theorem noThrow_shrink (n : INode P) (childToDelete : Nat) : NoThrow (n.shrink childToDelete) := by
  unfold shrink
  split
  · exact .throw rfl
  · exact .bind noThrow_inBounds fun _ => .bind noThrow_inBounds fun _ =>
      .bind noThrow_inBounds fun _ => .bind noThrow_inBounds fun _ =>
      .bind noThrow_inBounds fun _ => .bind noThrow_inBounds fun _ =>
      .bind noThrow_inBounds fun _ => .bind noThrow_inBounds fun _ =>
      .bind noThrow_assertThat fun _ => .pure
  · exact .bind noThrow_assertThat fun _ => .bind noThrow_inBounds fun _ =>
      .bind (noThrow_copyInto16 _ _ _ _ _) fun _ => .bind noThrow_inBounds fun _ =>
      .bind noThrow_assertThat fun _ => .pure
  · exact .bind (noThrow_copyInto48 _ _ _ _) fun _ => .pure

theorem noThrow_lastChild (n : INode P) (childToDelete : Nat) :
    NoThrow (n.lastChild childToDelete) := by
  refine .bind noThrow_assertThat fun _ => ?_
  dsimp only
  generalize (if childToDelete = 0 then 1 else 0) = childToLeave
  split
  · refine .bind noThrow_inBounds fun _ => ?_
    split
    · exact .pure
    · exact .throw rfl
  · exact .throw rfl

theorem noThrow_initLeafSplit {κ : Type} [StoredKey κ] (keyPrefix : KeyPrefix) (k1 : List UInt8)
    (shiftedK2 : κ) (depth : Nat) (child1 child2 : P) :
    NoThrow (initLeafSplit keyPrefix k1 shiftedK2 depth child1 child2) :=
  .bind (noThrow_viewByte _ _) fun _ => .bind (StoredKey.byteAt_failsOnly _ _) fun _ =>
    noThrow_addTwoToEmpty _ _ _ _ _

theorem noThrow_initPrefixSplit (keyPrefix sourceKeyPrefix : KeyPrefix) (sourceNode : P)
    (sharedPrefixLen depth : Nat) (key1 : List UInt8) (child1 : P) :
    NoThrow (initPrefixSplit keyPrefix sourceKeyPrefix sourceNode sharedPrefixLen depth key1
      child1) :=
  .bind noThrow_assertThat fun _ => .bind (.ite .ok (.error rfl)) fun _ =>
    .bind (.ite .ok (.error rfl)) fun _ => .bind (noThrow_viewByte _ _) fun _ =>
    .bind (noThrow_addTwoToEmpty _ _ _ _ _) fun _ => .pure

end INode

namespace Tree

theorem noThrow_readInode (t : Tree) (p : NodePtr) : NoThrow (t.readInode p) := by
  unfold readInode
  split
  · exact .ok
  · exact .error rfl

theorem noThrow_readLeaf (t : Tree) (p : NodePtr) : NoThrow (t.readLeaf p) := by
  unfold readLeaf
  split
  · exact .ok
  · exact .error rfl

end Tree

namespace OlcDb

/-! ## 2. The locks of a thread -/

/-- How a thread changes a lock word, if it does. -/
inductive LockMove (t : Nat) : LockWord → LockWord → Prop where
  | same (word : LockWord) : LockMove t word word
  | acquire (version : Nat) : LockMove t (.free version) (.locked version t)
  | release (version : Nat) : LockMove t (.locked version t) (.free (version + 1))
  | retire (version : Nat) : LockMove t (.locked version t) .obsolete

/-- The locks that a thread has taken for writing. -/
def Holds (s : OlcDb sizes) (t : Nat) (hs : Finset Site) : Prop :=
  ∀ l, (∃ version, s.lock l = .locked version t) ↔ l ∈ hs

/-- Threads that change lock words as they should, take at most `limit` locks each, and come to an
    action that waits with none. -/
def locking (limit : Nat) : Discipline (OlcDb sizes) Nat (OlcDb sizes) where
  state s := s
  inv _ := True
  guar t s s' := (∀ l, LockMove t (s.lock l) (s'.lock l)) ∧
    ∃ hs : Finset Site, hs.card ≤ limit ∧ s'.Holds t hs
  rely t s s' := ∀ l version, s'.lock l = .locked version t ↔ s.lock l = .locked version t
  mayWait t s := s.Holds t ∅
  blocked _ s := ∃ l version u, s.lock l = .locked version u
  solo := False

/-- From a state in which the thread has the locks `hs`, the program comes to states in which it has
    the locks `hs'`.  An exception leaves it with none. -/
def Leaves {α : Type} (limit t : Nat) (hs : Finset Site) (p : OlcM sizes α) (hs' : Finset Site) : Prop :=
  hs.card ≤ limit → ∀ s : OlcDb sizes, s.Holds t hs → (locking limit).Safe t
    (fun _ s' => hs'.card ≤ limit ∧ s'.Holds t hs') (fun e s' => e.isException → s'.Holds t ∅) p s

variable {α β κ : Type} {limit t : Nat} {hs hs₁ hs₂ : Finset Site} {s s₁ : OlcDb sizes}

theorem Holds.keeps (h : s.Holds t hs)
    (hrely : ∀ l version, s₁.lock l = .locked version t ↔ s.lock l = .locked version t) :
    s₁.Holds t hs := fun l => (exists_congr fun version => hrely l version).trans (h l)

theorem Holds.later (h : s.Holds t hs) (hlater : (locking limit).Later t s s₁) : s₁.Holds t hs :=
  hlater.keeps (F := fun s => s.Holds t hs) (fun _ hrely _ hw => hw.keeps hrely) trivial h

namespace Leaves

theorem ret {a : α} : Leaves limit t hs (.ret a : OlcM sizes α) hs :=
  fun hcard _ h _ hlater _ => ⟨hcard, h.later hlater⟩

theorem throw {e : Fault} (he : e.isException → hs = ∅) :
    Leaves limit t hs (.throw e : OlcM sizes α) hs₁ := fun _ _ h _ hlater _ hexc => by
  rw [← he hexc]
  exact h.later hlater

theorem bind {p : OlcM sizes α} {k : α → OlcM sizes β} (hp : Leaves limit t hs p hs₁)
    (hk : ∀ a, Leaves limit t hs₁ (k a) hs₂) : Leaves limit t hs (p >>= k) hs₂ :=
  fun hcard s h => Discipline.Safe.bind
    ((hp hcard s h).mono (fun a w hw => hk a hw.1 w hw.2) fun _ _ he => he)

theorem ite {c : Prop} [Decidable c] {p q : OlcM sizes α} (hp : Leaves limit t hs p hs₁)
    (hq : Leaves limit t hs q hs₁) : Leaves limit t hs (if c then p else q) hs₁ := by
  by_cases hc : c
  · rw [if_pos hc]
    exact hp
  · rw [if_neg hc]
    exact hq

theorem lift {x : Except Fault α} (hx : NoThrow x ∨ hs = ∅) :
    Leaves limit t hs (Prog.lift x : OlcM sizes α) hs := by
  cases hcase : x with
  | ok a => exact .ret
  | error e =>
    refine .throw fun he => ?_
    rcases hx with hx | hempty
    · rw [hx e hcase] at he
      cases he
    · exact hempty

/-- An action that has an outcome in every state, and what it does to the lock words. -/
theorem atomic {f : Choice → OlcDb sizes → Option (α × OlcDb sizes)} {k : α → OlcM sizes β}
    (hf : ∀ c s, s.Holds t hs → ∃ a s' hs', f c s = some (a, s') ∧
      (∀ l, LockMove t (s.lock l) (s'.lock l)) ∧ s'.Holds t hs' ∧ hs'.card ≤ limit ∧
      Leaves limit t hs' (k a) hs₁)
    (htotal : ∀ c s, (f c s).isSome) : Leaves limit t hs (Prog.action f >>= k) hs₁ := by
  intro hcard s h
  refine Discipline.Safe.action fun s₁ hlater _ => ?_
  refine ⟨fun ⟨c, s₂, hnone⟩ => ?_, fun c => ⟨fun hnone => ?_, fun a s₂ hrun => ?_⟩⟩
  · have hsome := htotal c s₂
    rw [hnone] at hsome
    cases hsome
  · have hsome := htotal c s₁
    rw [show f c s₁ = none from hnone] at hsome
    cases hsome
  · obtain ⟨a', s', hs', hsome, hmove, hholds, hcard', hk⟩ := hf c s₁ (h.later hlater)
    cases (show f c s₁ = some (a, s₂) from hrun).symm.trans hsome
    exact ⟨s₂, rfl, trivial, ⟨hmove, hs', hcard', hholds⟩, hk hcard' s₂ hholds⟩

end Leaves

/-! ## 3. The actions -/

/-- An action that leaves the lock words as they are. -/
theorem leaves_act (f : OlcDb sizes → α × OlcDb sizes) (hf : ∀ s, (f s).2.lock = s.lock) :
    Leaves limit t hs (act f) hs := by
  intro hcard
  refine (Leaves.atomic (k := .ret) (fun c s h => ?_) fun _ _ => rfl) hcard
  refine ⟨_, _, hs, rfl, fun l => ?_, ?_, hcard, .ret⟩
  · rw [hf]
    exact .same _
  · exact h.keeps fun l version => by rw [hf]

/-- An action that leaves the lock words as they are and may end in a fault. -/
theorem leaves_tryAct {f : Choice → OlcDb sizes → Except Fault (α × OlcDb sizes)}
    (hf : ∀ c s, Ensures (f c s) fun r => r.2.lock = s.lock)
    (hthrow : (∀ c s, NoThrow (f c s)) ∨ hs = ∅) : Leaves limit t hs (tryAct f) hs := by
  intro hcard
  refine (Leaves.atomic (fun c s h => ?_) fun c s => ?_) hcard
  · cases hrun : f c s with
    | error e =>
      refine ⟨.error e, s, hs, rfl, fun l => .same _, h, hcard, .lift ?_⟩
      refine hthrow.imp (fun hno e' he' => ?_) id
      exact Except.error.inj he' ▸ hno c s e hrun
    | ok r =>
      have hlock := hf c s r hrun
      refine ⟨.ok r.1, r.2, hs, rfl, fun l => ?_, ?_, hcard, .ret⟩
      · rw [hlock]
        exact .same _
      · exact h.keeps fun l version => by rw [hlock]
  · cases f c s <;> rfl

/-- The only action that waits. -/
theorem leaves_tryReadLock (l : Site) : Leaves limit t ∅ (tryReadLock l : OlcM sizes _) ∅ := by
  intro hcard s h s₁ hlater _
  have h₁ := h.later hlater
  have hguar : (locking limit).guar t s₁ s₁ := ⟨fun l => .same _, ∅, Nat.zero_le _, h₁⟩
  have hdone : ∀ cs, (locking limit).Safe t (fun _ s' => (∅ : Finset Site).card ≤ limit ∧
      s'.Holds t ∅) (fun e s' => e.isException → s'.Holds t ∅)
      (.ret cs : OlcM sizes (Option CriticalSection)) s₁ := fun cs => Leaves.ret hcard s₁ h₁
  refine ⟨fun _ => h₁, fun c => ?_⟩
  dsimp only [locking]
  cases hword : s₁.lock l with
  | free version =>
    refine ⟨fun hnone => absurd hnone (by simp), fun cs s₂ hrun => ?_⟩
    cases hrun
    exact ⟨_, rfl, trivial, hguar, hdone _⟩
  | obsolete =>
    refine ⟨fun hnone => absurd hnone (by simp), fun cs s₂ hrun => ?_⟩
    cases hrun
    exact ⟨_, rfl, trivial, hguar, hdone _⟩
  | locked version u =>
    refine ⟨fun _ => ⟨id, l, version, u, hword⟩, fun cs s₂ hrun => ?_⟩
    cases hrun

theorem setLock_lock_self (s : OlcDb sizes) (l : Site) (word : LockWord) :
    (s.setLock l word).lock l = word :=
  Function.update_self _ _ _

theorem setLock_lock_of_ne (s : OlcDb sizes) {l l' : Site} (hne : l' ≠ l) (word : LockWord) :
    (s.setLock l word).lock l' = s.lock l' := Function.update_of_ne hne _ _

theorem Holds.setLock (h : s.Holds t hs) {l : Site} {word : LockWord} {hs' : Finset Site}
    (hl : (∃ version, word = .locked version t) ↔ l ∈ hs')
    (hother : ∀ l', l' ≠ l → (l' ∈ hs' ↔ l' ∈ hs)) : (s.setLock l word).Holds t hs' := by
  intro l'
  by_cases heq : l' = l
  · rw [heq, setLock_lock_self]
    exact hl
  · rw [setLock_lock_of_ne s heq, hother l' heq]
    exact h l'

theorem lockMove_setLock {l : Site} {word : LockWord} (hl : LockMove t (s.lock l) word) (l' : Site) :
    LockMove t (s.lock l') ((s.setLock l word).lock l') := by
  by_cases heq : l' = l
  · rw [heq, setLock_lock_self]
    exact hl
  · rw [setLock_lock_of_ne s heq]
    exact .same _

/-- An upgrade, and what follows in either case. -/
theorem leaves_writeGuard {cs : CriticalSection} {p q : OlcM sizes α} {n : Nat} (hn : hs.card ≤ n)
    (hlimit : n < limit)
    (hp : cs.lock ∉ hs → (insert cs.lock hs).card ≤ n + 1 →
      Leaves limit t (insert cs.lock hs) p hs₁)
    (hq : Leaves limit t hs q hs₁) :
    Leaves limit t hs (writeGuard t cs >>= fun b => if b = true then p else q) hs₁ := by
  refine Leaves.atomic (fun _ s h => ?_) fun _ _ => rfl
  by_cases hfree : s.lock cs.lock = .free cs.version
  · have hnot : cs.lock ∉ hs := by
      rw [← h cs.lock, hfree]
      rintro ⟨version, ⟨⟩⟩
    have hcard : (insert cs.lock hs).card ≤ n + 1 := (Finset.card_insert_le _ _).trans (by omega)
    refine ⟨true, s.setLock cs.lock (.locked cs.version t), insert cs.lock hs, ?_, ?_, ?_,
      hcard.trans hlimit, hp hnot hcard⟩
    · exact congrArg some (if_pos hfree)
    · refine lockMove_setLock ?_
      rw [hfree]
      exact .acquire _
    · refine h.setLock (iff_of_true ⟨_, rfl⟩ (Finset.mem_insert_self _ _)) fun l' hne => ?_
      rw [Finset.mem_insert, or_iff_right hne]
  · exact ⟨false, s, hs, congrArg some (if_neg hfree), fun l => .same _, h, hn.trans hlimit.le, hq⟩

/-- A lock given back in either of the two ways. -/
theorem leaves_release {f : LockWord → LockWord} {l : Site} (hl : l ∉ hs)
    (hf : ∀ version, LockMove t (.locked version t) (f (.locked version t)) ∧
      ∀ v, f (.locked version t) ≠ .locked v t) :
    Leaves limit t (insert l hs) (act fun s : OlcDb sizes => ((), s.setLock l (f (s.lock l)))) hs := by
  intro hcard
  refine (Leaves.atomic (k := .ret) (fun _ s h => ?_) fun _ _ => rfl) hcard
  obtain ⟨version, hword⟩ := (h l).mpr (Finset.mem_insert_self l hs)
  obtain ⟨hmove, hne⟩ := hf version
  refine ⟨(), _, hs, rfl, ?_, ?_, (Finset.card_le_card (Finset.subset_insert l hs)).trans hcard, .ret⟩
  · refine lockMove_setLock ?_
    rw [hword]
    exact hmove
  · refine h.setLock (iff_of_false ?_ hl) fun l' hne' => ?_
    · rw [hword]
      exact fun ⟨v, hv⟩ => hne v hv
    · rw [Finset.mem_insert, or_iff_right hne']

theorem leaves_unlock {l : Site} (hl : l ∉ hs) :
    Leaves limit t (insert l hs) (unlock l : OlcM sizes _) hs :=
  leaves_release hl fun version => ⟨.release version, fun v h => by cases h⟩

theorem leaves_unlockAndObsolete {l : Site} (hl : l ∉ hs) :
    Leaves limit t (insert l hs) (unlockAndObsolete l : OlcM sizes _) hs :=
  leaves_release (f := fun _ => .obsolete) hl fun version => ⟨.retire version, fun v h => by cases h⟩

theorem leaves_check (cs : CriticalSection) : Leaves limit t hs (check cs : OlcM sizes _) hs :=
  leaves_act _ fun _ => rfl

/-- A check, and what follows in either case. -/
theorem leaves_checked {cs : CriticalSection} {p q : OlcM sizes α} (hp : Leaves limit t hs p hs₁)
    (hq : Leaves limit t hs q hs₁) :
    Leaves limit t hs (check cs >>= fun b => if b = true then p else q) hs₁ := by
  refine .bind (leaves_check cs) fun b => ?_
  cases b with
  | true => exact hp
  | false => exact hq

theorem leaves_loadRoot : Leaves limit t hs (loadRoot : OlcM sizes _) hs := leaves_act _ fun _ => rfl

theorem leaves_reading (css : List CriticalSection) (node : NodePtr) (f : INode NodePtr → β) :
    Leaves limit t hs (reading css node f : OlcM sizes _) hs :=
  leaves_tryAct (fun _ _ => .bind_any fun _ => .pure rfl)
    (.inl fun _ s => .bind (s.mem.noThrow_readInode node) fun _ => .pure)

theorem leaves_loadChild (cs : CriticalSection) (sl : Slot) :
    Leaves limit t hs (loadChild cs sl : OlcM sizes _) hs := by
  cases sl with
  | root => exact leaves_tryAct (fun _ _ => .ok rfl) (.inl fun _ _ => .ok)
  | child a i =>
    refine leaves_tryAct (fun _ s => ?_) (.inl fun _ s => ?_)
    · dsimp only
      split
      · exact .ok rfl
      · exact .error
    · dsimp only
      split
      · exact .ok
      · exact .error rfl

theorem leaves_readKey (node : NodePtr) : Leaves limit t hs (readKey node : OlcM sizes _) hs :=
  leaves_tryAct (fun _ _ => .bind_any fun _ => .pure rfl)
    (.inl fun _ s => .bind (s.mem.noThrow_readLeaf node) fun _ => .pure)

theorem leaves_readLeaf (node : NodePtr) : Leaves limit t hs (readLeaf node : OlcM sizes _) hs :=
  leaves_tryAct (fun _ _ => .bind_any fun _ => .pure rfl)
    (.inl fun _ s => .bind (s.mem.noThrow_readLeaf node) fun _ => .pure)

theorem leaves_storeSlot (sl : Slot) (node : NodePtr) :
    Leaves limit t hs (storeSlot sl node : OlcM sizes _) hs :=
  leaves_act _ fun _ => rfl

theorem leaves_updateInode (node : NodePtr) {f : INode NodePtr → Except Fault (INode NodePtr)}
    (hf : ∀ n, NoThrow (f n)) : Leaves limit t hs (updateInode node f : OlcM sizes _) hs :=
  leaves_tryAct (fun _ _ => .bind_any fun _ => .bind_any fun _ => .pure rfl)
    (.inl fun _ s => .bind (s.mem.noThrow_readInode node) fun n => .bind (hf n) fun _ => .pure)

theorem leaves_onNextEpochDeallocate (node : NodePtr) :
    Leaves limit t hs (onNextEpochDeallocate t node : OlcM sizes _) hs := by
  refine leaves_tryAct (fun _ s => ?_) (.inl fun _ s => ?_)
  · split
    · exact .bind_any fun _ => .pure rfl
    · exact .error
  · split
    · exact .bind (.bind noThrow_assertThat fun _ => .pure) fun _ => .pure
    · exact .error rfl

theorem leaves_free (node : NodePtr) : Leaves limit t hs (free node : OlcM sizes _) hs := by
  refine leaves_tryAct (fun _ s => ?_) (.inl fun _ s => ?_)
  · split
    · exact .bind_any fun _ => .pure rfl
    · exact .error
  · split
    · exact .bind (.bind noThrow_assertThat fun _ => .pure) fun _ => .pure
    · exact .error rfl

/-- Memory is allocated while the thread has no lock. -/
theorem leaves_makeDbLeafPtr [ArtKey κ] (k : κ) (v : List UInt8) :
    Leaves limit t ∅ (makeDbLeafPtr k v : OlcM sizes _) ∅ := by
  refine leaves_tryAct (fun _ s => ?_) (.inr rfl)
  split
  · exact .error
  · exact .ite (fun _ => .error) fun _ => .bind_any fun _ => .pure rfl

theorem leaves_tryMakeDbInode (type : NodeType) (keyPrefix : KeyPrefix) :
    Leaves limit t ∅ (tryMakeDbInode type keyPrefix : OlcM sizes _) ∅ :=
  leaves_tryAct (fun _ s => .ite (fun _ => .pure rfl) fun _ =>
    .bind (Q := fun r => r.2.lock = s.lock) (.bind_any fun _ => .pure rfl) fun _ hr => .pure hr)
    (.inr rfl)

/-! ## 4. Node construction -/

theorem leaves_createLeafIfNeeded [ArtKey κ] (cachedLeaf : Option NodePtr) (k : κ)
    (v : List UInt8) : Leaves limit t ∅ (createLeafIfNeeded cachedLeaf k v : OlcM sizes _) ∅ := by
  cases cachedLeaf with
  | none => exact leaves_makeDbLeafPtr k v
  | some leaf => exact .ret

theorem leaves_resetLeaf (cachedLeaf : Option NodePtr) :
    Leaves limit t hs (resetLeaf cachedLeaf : OlcM sizes _) hs := by
  cases cachedLeaf with
  | none => exact .ret
  | some leaf => exact leaves_free leaf

theorem leaves_makeDbInode (cachedLeaf : Option NodePtr) (type : NodeType) (keyPrefix : KeyPrefix) :
    Leaves limit t ∅ (makeDbInode cachedLeaf type keyPrefix : OlcM sizes _) ∅ := by
  refine .bind (leaves_tryMakeDbInode type keyPrefix) fun node => ?_
  cases node with
  | some node => exact .ret
  | none => exact .bind (leaves_resetLeaf cachedLeaf) fun _ => .throw fun _ => rfl

theorem leaves_initLeafSplit [StoredKey κ] (newNode : NodePtr) (existingKey : List UInt8)
    (remainingKey : κ) (depth : Nat) (leaf newLeaf : NodePtr) :
    Leaves limit t hs
      (initLeafSplit newNode existingKey remainingKey depth leaf newLeaf : OlcM sizes _) hs :=
  leaves_updateInode newNode fun _ => INode.noThrow_initLeafSplit _ _ _ _ _ _

theorem leaves_initPrefixSplit (newNode sourceNode : NodePtr) (sharedPrefixLen depth : Nat)
    (newLeaf : NodePtr) :
    Leaves limit t hs
      (initPrefixSplit newNode sourceNode sharedPrefixLen depth newLeaf : OlcM sizes _) hs :=
  leaves_tryAct
    (fun _ _ => .bind_any fun _ => .bind_any fun _ => .bind_any fun _ => .bind_any fun _ => .pure rfl)
    (.inl fun _ s => .bind (s.mem.noThrow_readInode _) fun _ =>
      .bind (s.mem.noThrow_readInode _) fun _ => .bind (s.mem.noThrow_readLeaf _) fun _ =>
      .bind (INode.noThrow_initPrefixSplit _ _ _ _ _ _ _) fun _ => .pure)

theorem leaves_initLarger (newNode sourceNode newLeaf : NodePtr) (depth : Nat) :
    Leaves limit t hs (initLarger newNode sourceNode newLeaf depth : OlcM sizes _) hs :=
  leaves_tryAct
    (fun _ _ => .bind_any fun _ => .bind_any fun _ => .bind_any fun _ => .bind_any fun _ =>
      .bind_any fun _ => .pure rfl)
    (.inl fun _ s => .bind (s.mem.noThrow_readInode _) fun _ =>
      .bind (s.mem.noThrow_readInode _) fun source => .bind (s.mem.noThrow_readLeaf _) fun _ =>
      .bind (noThrow_viewByte _ _) fun _ => .bind (source.noThrow_grow _ _) fun _ => .pure)

theorem leaves_initSmaller (newNode sourceNode : NodePtr) (childToDelete : Nat) :
    Leaves limit t hs (initSmaller newNode sourceNode childToDelete : OlcM sizes _) hs :=
  leaves_tryAct (fun _ _ => .bind_any fun _ => .bind_any fun _ => .bind_any fun _ => .pure rfl)
    (.inl fun _ s => .bind (s.mem.noThrow_readInode _) fun _ =>
      .bind (s.mem.noThrow_readInode _) fun source =>
      .bind (source.noThrow_shrink _) fun _ => .pure)

theorem leaves_leaveLastChild (node : NodePtr) (childToDelete : Nat) :
    Leaves limit t hs (leaveLastChild node childToDelete : OlcM sizes _) hs :=
  leaves_tryAct
    (fun _ _ => .bind_any fun _ => .bind_any fun _ => .ite
      (fun _ => .bind_any fun _ => .bind_any fun _ => .pure rfl) fun _ => .pure rfl)
    (.inl fun _ s => .bind (s.mem.noThrow_readInode _) fun n => .bind (n.noThrow_lastChild _) fun _ =>
      .ite (.bind (s.mem.noThrow_readInode _) fun _ => .bind (.dite (fun _ => .ok) fun _ => .error rfl)
        fun _ => .pure) .pure)

/-- A node that was not linked is freed. -/
theorem leaves_giveUp {newNode : NodePtr} {a : α} :
    Leaves limit t ∅ (do free newNode; return a : OlcM sizes _) ∅ :=
  .bind (leaves_free newNode) fun _ => .ret

/-! ## 5. Insertion -/

section Insertion

variable [StoredKey κ] {cachedLeaf : Option NodePtr} {node leaf : NodePtr}
  {parentCs nodeCs : CriticalSection}
  {nodeInParent : Slot} {depth : Nat} {k remainingKey : κ} {v : List UInt8} (hlimit : 2 ≤ limit)
include hlimit

omit [StoredKey κ] in
/-- The guards of a parent and of a node, with what is done under both of them, and without. -/
theorem leaves_guards {p q : OlcM sizes α}
    (hp : parentCs.lock ∉ (∅ : Finset Site) → nodeCs.lock ∉ insert parentCs.lock (∅ : Finset Site) →
      Leaves limit t (insert nodeCs.lock (insert parentCs.lock ∅)) p ∅)
    (hq : Leaves limit t ∅ q ∅) :
    Leaves limit t ∅ (do
      if ← writeGuard t parentCs then
        if ← writeGuard t nodeCs then p
        else
          unlock parentCs.lock
          q
      else q : OlcM sizes _) ∅ := by
  refine leaves_writeGuard (Nat.le_refl 0) (by omega) (fun hparent hcard => ?_) hq
  refine leaves_writeGuard hcard (by omega) (fun hnode _ => hp hparent hnode) ?_
  exact .bind (leaves_unlock hparent) fun _ => hq

omit [StoredKey κ] in
theorem leaves_growInode : Leaves limit t ∅
    (growInode t node depth nodeCs nodeInParent parentCs leaf : OlcM sizes _) ∅ := by
  refine .bind (leaves_reading _ _ _) fun keyPrefix => .bind (leaves_makeDbInode _ _ _) fun larger => ?_
  refine leaves_guards hlimit (fun hparent hnode => ?_) leaves_giveUp
  exact .bind (leaves_unlockAndObsolete hnode) fun _ => .bind (leaves_initLarger _ _ _ _) fun _ =>
    .bind (leaves_onNextEpochDeallocate _) fun _ => .bind (leaves_storeSlot _ _) fun _ =>
    .bind (leaves_unlock hparent) fun _ => .bind (leaves_act _ fun _ => rfl) fun _ => .ret

theorem leaves_addToNonfull {childrenCount : Nat} : Leaves limit t ∅
    (addToNonfull t node k depth nodeCs parentCs leaf childrenCount : OlcM sizes _) ∅ := by
  refine leaves_writeGuard (Nat.le_refl 0) (by omega) (fun hnode _ => ?_) .ret
  refine leaves_checked ?_ (.bind (leaves_unlock hnode) fun _ => .ret)
  refine .bind (leaves_updateInode _ fun n => ?_) fun _ => .bind (leaves_unlock hnode) fun _ => .ret
  exact .bind (noThrow_viewByte _ _) fun _ => n.noThrow_addToNonfull _ _ _

theorem leaves_addOrChooseSubtree {keyByte : UInt8} : Leaves limit t ∅
    (addOrChooseSubtree t node keyByte k v depth nodeCs nodeInParent parentCs cachedLeaf :
      OlcM sizes _) ∅ := by
  refine .bind (leaves_reading _ _ _) fun found => ?_
  cases found with
  | some r => exact .ret
  | none =>
    refine .bind (leaves_createLeafIfNeeded _ _ _) fun leaf =>
      .bind (leaves_reading _ _ _) fun childrenCount => ?_
    split
    · exact leaves_growInode hlimit
    · exact leaves_addToNonfull hlimit

theorem leaves_splitLeaf {existingKey : List UInt8} : Leaves limit t ∅
    (splitLeaf t k v cachedLeaf node existingKey nodeInParent parentCs nodeCs depth remainingKey :
      OlcM sizes _)
    ∅ := by
  refine .bind (leaves_createLeafIfNeeded _ _ _) fun leaf => .bind (.lift (.inr rfl)) fun keyPrefix =>
    .bind (leaves_makeDbInode _ _ _) fun newNode => ?_
  refine leaves_guards hlimit (fun hparent hnode => ?_) leaves_giveUp
  exact .bind (leaves_initLeafSplit _ _ _ _ _ _) fun _ => .bind (leaves_storeSlot _ _) fun _ =>
    .bind (leaves_unlock hnode) fun _ => .bind (leaves_unlock hparent) fun _ =>
    .bind (leaves_act _ fun _ => rfl) fun _ => .ret

theorem leaves_splitPrefix {sharedPrefixLen : Nat} : Leaves limit t ∅
    (splitPrefix t k v cachedLeaf node sharedPrefixLen nodeInParent parentCs nodeCs depth :
      OlcM sizes _) ∅ := by
  refine .bind (leaves_createLeafIfNeeded _ _ _) fun leaf => .bind (leaves_reading _ _ _) fun source =>
    .bind (.lift (.inr rfl)) fun keyPrefix => .bind (leaves_makeDbInode _ _ _) fun newNode => ?_
  refine leaves_guards hlimit (fun hparent hnode => ?_) leaves_giveUp
  exact .bind (leaves_initPrefixSplit _ _ _ _ _) fun _ => .bind (leaves_storeSlot _ _) fun _ =>
    .bind (leaves_unlock hnode) fun _ => .bind (leaves_unlock hparent) fun _ =>
    .bind (leaves_act _ fun _ => rfl) fun _ => .bind (leaves_act _ fun _ => rfl) fun _ => .ret

theorem leaves_insertLoop {fuel : Nat} : Leaves limit t ∅
    (insertLoop t k v cachedLeaf fuel node nodeInParent parentCs depth remainingKey : OlcM sizes _) ∅ := by
  induction fuel generalizing node nodeInParent parentCs depth remainingKey with
  | zero => exact .throw fun _ => rfl
  | succ fuel ih =>
    refine .bind (leaves_tryReadLock _) fun cs => ?_
    cases cs with
    | none => exact .ret
    | some nodeCs =>
      dsimp only
      split
      · refine .bind (leaves_readKey _) fun existingKey => ?_
        split
        · exact leaves_checked
            (leaves_checked (.bind (leaves_resetLeaf _) fun _ => .ret) .ret) .ret
        · exact leaves_splitLeaf hlimit
      · refine .bind (leaves_reading _ _ _) fun keyPrefixLength =>
          .bind (leaves_reading _ _ _) fun sharedPrefixLen => ?_
        split
        · exact leaves_splitPrefix hlimit
        · refine .bind (.lift (.inr rfl)) fun _ => .bind (.lift (.inr rfl)) fun remainingKey =>
            .bind (.lift (.inr rfl)) fun keyByte => .bind (leaves_addOrChooseSubtree hlimit) fun r => ?_
          cases r with
          | restart cachedLeaf => exact .ret
          | added => exact .ret
          | child childInParent =>
            refine leaves_checked (.bind (leaves_loadChild _ _) fun child =>
              .bind (.lift (.inr rfl)) fun remainingKey => leaves_checked ?_ .ret) .ret
            exact .bind (.lift (.inr rfl)) fun child => ih

theorem leaves_tryInsert : Leaves limit t ∅ (tryInsert t k v cachedLeaf : OlcM sizes _) ∅ := by
  refine .bind (leaves_tryReadLock _) fun cs => ?_
  cases cs with
  | none => exact .ret
  | some parentCs =>
    refine .bind leaves_loadRoot fun root => ?_
    cases root with
    | none =>
      refine .bind (leaves_createLeafIfNeeded _ _ _) fun leaf => ?_
      refine leaves_writeGuard (Nat.le_refl 0) (by omega) (fun hparent _ => ?_) .ret
      exact .bind (leaves_storeSlot _ _) fun _ => .bind (leaves_unlock hparent) fun _ => .ret
    | some node => exact leaves_checked (leaves_insertLoop hlimit) .ret

end Insertion

/-! ## 6. Removal -/

section Removal

variable [ArtKey κ] {node child : NodePtr} {parentCs nodeCs childCs : CriticalSection}
  {nodeInParent : Slot} {childI : Nat} {k remainingKey : κ} (hlimit : 3 ≤ limit)
include hlimit

omit [ArtKey κ] in
theorem leaves_removeChild : Leaves limit t ∅
    (removeChild t node childI child parentCs nodeCs childCs : OlcM sizes _) ∅ := by
  refine leaves_checked ?_ .ret
  refine leaves_writeGuard (Nat.le_refl 0) (by omega) (fun hnode hcard => ?_) .ret
  refine leaves_writeGuard hcard (by omega) (fun hchild _ => ?_)
    (.bind (leaves_unlock hnode) fun _ => .ret)
  refine .bind (leaves_unlockAndObsolete hchild) fun _ => ?_
  split
  · exact .bind (leaves_onNextEpochDeallocate _) fun _ =>
      .bind (leaves_updateInode _ fun n => n.noThrow_remove _) fun _ =>
      .bind (leaves_unlock hnode) fun _ => .ret
  · exact .bind (leaves_updateInode _ fun n => n.noThrow_remove _) fun _ =>
      .bind (leaves_onNextEpochDeallocate _) fun _ => .bind (leaves_unlock hnode) fun _ => .ret

omit [ArtKey κ] in
/-- The guards of a parent, of a node and of a leaf below it, with what is done under all of them
    once the locks of node and leaf are obsolete, and without. -/
theorem leaves_guards₃ {p q : OlcM sizes α}
    (hp : parentCs.lock ∉ (∅ : Finset Site) → Leaves limit t (insert parentCs.lock ∅) p ∅)
    (hq : Leaves limit t ∅ q ∅) :
    Leaves limit t ∅ (do
      if ← writeGuard t parentCs then
        if ← writeGuard t nodeCs then
          if ← writeGuard t childCs then
            unlockAndObsolete nodeCs.lock
            unlockAndObsolete childCs.lock
            p
          else
            unlock nodeCs.lock
            unlock parentCs.lock
            q
        else
          unlock parentCs.lock
          q
      else q : OlcM sizes _) ∅ := by
  refine leaves_writeGuard (Nat.le_refl 0) (by omega) (fun hparent hcard => ?_) hq
  refine leaves_writeGuard hcard (by omega) (fun hnode hcard => ?_)
    (.bind (leaves_unlock hparent) fun _ => hq)
  refine leaves_writeGuard hcard (by omega) (fun hchild _ => ?_)
    (.bind (leaves_unlock hnode) fun _ => .bind (leaves_unlock hparent) fun _ => hq)
  -- The lock of the node goes first, although that of the leaf was taken last.
  have hne : nodeCs.lock ≠ childCs.lock := fun heq => hchild (heq ▸ Finset.mem_insert_self _ _)
  have hnode' : nodeCs.lock ∉ insert childCs.lock (insert parentCs.lock (∅ : Finset Site)) := by
    rw [Finset.mem_insert, not_or]
    exact ⟨hne, hnode⟩
  have hchild' : childCs.lock ∉ insert parentCs.lock (∅ : Finset Site) :=
    fun hmem => hchild (Finset.mem_insert_of_mem hmem)
  rw [Finset.insert_comm]
  exact .bind (leaves_unlockAndObsolete hnode') fun _ =>
    .bind (leaves_unlockAndObsolete hchild') fun _ => hp hparent

omit [ArtKey κ] in
theorem leaves_collapseInode : Leaves limit t ∅
    (collapseInode t node childI child nodeInParent parentCs nodeCs childCs : OlcM sizes _) ∅ := by
  refine leaves_guards₃ hlimit (fun hparent => ?_) .ret
  exact .bind (leaves_leaveLastChild _ _) fun _ => .bind (leaves_onNextEpochDeallocate _) fun _ =>
    .bind (leaves_storeSlot _ _) fun _ => .bind (leaves_onNextEpochDeallocate _) fun _ =>
    .bind (leaves_unlock hparent) fun _ => .bind (leaves_act _ fun _ => rfl) fun _ => .ret

omit [ArtKey κ] in
theorem leaves_shrinkInode : Leaves limit t ∅
    (shrinkInode t node childI child nodeInParent parentCs nodeCs childCs : OlcM sizes _) ∅ := by
  refine .bind (leaves_reading _ _ _) fun keyPrefix =>
    .bind (leaves_makeDbInode _ _ _) fun smaller => ?_
  refine leaves_guards₃ hlimit (fun hparent => ?_) leaves_giveUp
  have hend : Leaves limit t (insert parentCs.lock ∅) (do
      onNextEpochDeallocate t node
      storeSlot nodeInParent smaller
      unlock parentCs.lock
      accountShrinkingInode node.type
      return RemoveResult.removed : OlcM sizes _) ∅ :=
    .bind (leaves_onNextEpochDeallocate _) fun _ => .bind (leaves_storeSlot _ _) fun _ =>
      .bind (leaves_unlock hparent) fun _ => .bind (leaves_act _ fun _ => rfl) fun _ => .ret
  split
  · exact .bind (leaves_onNextEpochDeallocate _) fun _ =>
      .bind (leaves_initSmaller _ _ _) fun _ => hend
  · exact .bind (leaves_initSmaller _ _ _) fun _ =>
      .bind (leaves_onNextEpochDeallocate _) fun _ => hend

theorem leaves_removeOrChooseSubtree {keyByte : UInt8} : Leaves limit t ∅
    (removeOrChooseSubtree t node keyByte k parentCs nodeCs nodeInParent : OlcM sizes _) ∅ := by
  refine .bind (leaves_reading _ _ _) fun found => ?_
  cases found with
  | none => exact leaves_checked (leaves_checked .ret .ret) .ret
  | some r =>
    refine .bind (leaves_loadChild _ _) fun child => leaves_checked ?_ .ret
    refine .bind (.lift (.inr rfl)) fun child => .bind (leaves_tryReadLock _) fun cs => ?_
    cases cs with
    | none => exact .ret
    | some childCs =>
      dsimp only
      split
      · exact leaves_checked .ret .ret
      · refine .bind (leaves_readKey _) fun key => ?_
        split
        · exact leaves_checked (leaves_checked (leaves_checked .ret .ret) .ret) .ret
        · refine .bind (leaves_reading _ _ _) fun isNodeMinSize => ?_
          split
          · split
            · exact leaves_collapseInode hlimit
            · exact leaves_shrinkInode hlimit
          · exact leaves_removeChild hlimit

theorem leaves_removeLoop {fuel : Nat} : Leaves limit t ∅
    (removeLoop t k fuel node nodeInParent parentCs nodeCs remainingKey : OlcM sizes _) ∅ := by
  induction fuel generalizing node nodeInParent parentCs nodeCs remainingKey with
  | zero => exact .throw fun _ => rfl
  | succ fuel ih =>
    refine .bind (leaves_reading _ _ _) fun keyPrefixLength =>
      .bind (leaves_reading _ _ _) fun sharedPrefixLen => ?_
    split
    · exact leaves_checked (leaves_checked .ret .ret) .ret
    · refine .bind (.lift (.inr rfl)) fun _ => .bind (.lift (.inr rfl)) fun remainingKey =>
        .bind (.lift (.inr rfl)) fun keyByte => .bind (leaves_removeOrChooseSubtree hlimit) fun r => ?_
      cases r with
      | restart => exact .ret
      | notFound => exact .ret
      | removed => exact .ret
      | child childInParent child childCs => exact .bind (.lift (.inr rfl)) fun remainingKey => ih

omit [ArtKey κ] in
theorem leaves_removeRootLeaf :
    Leaves limit t ∅ (removeRootLeaf t node parentCs nodeCs : OlcM sizes _) ∅ := by
  refine leaves_guards (by omega) (fun hparent hnode => ?_) .ret
  exact .bind (leaves_unlockAndObsolete hnode) fun _ => .bind (leaves_act _ fun _ => rfl) fun _ =>
    .bind (leaves_onNextEpochDeallocate _) fun _ => .bind (leaves_unlock hparent) fun _ => .ret

theorem leaves_tryRemove : Leaves limit t ∅ (tryRemove t k : OlcM sizes _) ∅ := by
  refine .bind (leaves_tryReadLock _) fun cs => ?_
  cases cs with
  | none => exact .ret
  | some parentCs =>
    refine .bind leaves_loadRoot fun root => leaves_checked ?_ .ret
    cases root with
    | none => exact .ret
    | some node =>
      refine .bind (leaves_tryReadLock _) fun cs => ?_
      cases cs with
      | none => exact .ret
      | some nodeCs =>
        dsimp only
        split
        · refine .bind (leaves_readKey _) fun key => ?_
          split
          · exact leaves_removeRootLeaf hlimit
          · exact leaves_checked .ret .ret
        · exact leaves_removeLoop hlimit

end Removal

/-! ## 7. Lookup and iteration -/

section Reading

variable {node : NodePtr} {parentCs nodeCs : CriticalSection} {it : OlcIterator} {fuel : Nat}
  {fwd : Bool}

theorem leaves_getLoop [ArtKey κ] {k remainingKey : κ} :
    Leaves limit t ∅ (getLoop k fuel node parentCs remainingKey : OlcM sizes _) ∅ := by
  induction fuel generalizing node parentCs remainingKey with
  | zero => exact .throw fun _ => rfl
  | succ fuel ih =>
    refine .bind (leaves_tryReadLock _) fun cs => ?_
    cases cs with
    | none => exact .ret
    | some nodeCs =>
      refine leaves_checked ?_ .ret
      split
      · exact .bind (leaves_readLeaf _) fun leaf => leaves_checked .ret .ret
      · refine .bind (leaves_reading _ _ _) fun keyPrefixLength =>
          .bind (leaves_reading _ _ _) fun sharedKeyPrefixLength => ?_
        split
        · exact leaves_checked .ret .ret
        · refine .bind (.lift (.inr rfl)) fun _ => .bind (.lift (.inr rfl)) fun remainingKey =>
            .bind (.lift (.inr rfl)) fun keyByte => .bind (leaves_reading _ _ _) fun found => ?_
          cases found with
          | none => exact leaves_checked .ret .ret
          | some r =>
            refine .bind (leaves_loadChild _ _) fun child => .bind (.lift (.inr rfl)) fun remainingKey =>
              leaves_checked ?_ .ret
            exact .bind (.lift (.inr rfl)) fun child => ih

theorem leaves_tryGet [ArtKey κ] {k : κ} : Leaves limit t ∅ (tryGet k : OlcM sizes _) ∅ := by
  refine .bind (leaves_tryReadLock _) fun cs => ?_
  cases cs with
  | none => exact .ret
  | some parentCs =>
    refine .bind leaves_loadRoot fun root => ?_
    cases root with
    | none => exact leaves_checked .ret .ret
    | some node => exact leaves_checked leaves_getLoop .ret

theorem leaves_traversalLoop :
    Leaves limit t ∅ (traversalLoop fwd fuel node parentCs it : OlcM sizes _) ∅ := by
  induction fuel generalizing node parentCs it with
  | zero => exact .throw fun _ => rfl
  | succ fuel ih =>
    refine .bind (leaves_tryReadLock _) fun cs => ?_
    cases cs with
    | none => exact .ret
    | some nodeCs =>
      refine leaves_checked ?_ .ret
      split
      · exact .bind (leaves_check _) fun _ => .ret
      · refine .bind (leaves_reading _ _ _) fun r => leaves_checked ?_ .ret
        refine .bind (.lift (.inr rfl)) fun e => .bind (.lift (.inr rfl)) fun it =>
          .bind (leaves_reading _ _ _) fun child => leaves_checked ?_ .ret
        exact .bind (.lift (.inr rfl)) fun child => ih

theorem leaves_tryTraversal : Leaves limit t ∅ (tryTraversal fuel fwd node parentCs it : OlcM sizes _) ∅ :=
  leaves_checked leaves_traversalLoop .ret

theorem leaves_tryOutermost : Leaves limit t ∅ (tryOutermost fuel fwd it : OlcM sizes _) ∅ := by
  refine .bind (leaves_tryReadLock _) fun cs => ?_
  cases cs with
  | none => exact .ret
  | some parentCs =>
    refine .bind leaves_loadRoot fun root => ?_
    cases root with
    | none => exact .bind (leaves_check _) fun _ => .ret
    | some node => exact leaves_tryTraversal

theorem leaves_tryAdvance {stack : List OlcStackEntry} {keybuf : List UInt8} :
    Leaves limit t ∅ (tryAdvance fuel fwd stack keybuf : OlcM sizes _) ∅ := by
  induction stack generalizing keybuf with
  | nil => exact .ret
  | cons e stack ih =>
    refine leaves_checked ?_ .ret
    split
    · exact .bind (.lift (.inr rfl)) fun keybuf => leaves_checked ih .ret
    · refine .bind (leaves_reading _ _ _) fun nxt => leaves_checked ?_ .ret
      refine .bind (.lift (.inr rfl)) fun nxt => ?_
      cases nxt with
      | none => exact .bind (.lift (.inr rfl)) fun keybuf => leaves_checked ih .ret
      | some e2 =>
        refine .bind (.lift (.inr rfl)) fun keybuf => .bind (.lift (.inr rfl)) fun it =>
          .bind (leaves_reading _ _ _) fun child => leaves_checked ?_ .ret
        exact .bind (.lift (.inr rfl)) fun child => leaves_tryTraversal

theorem leaves_tryUnwind {stack : List OlcStackEntry} {keybuf : List UInt8} :
    Leaves limit t ∅ (tryUnwind fuel fwd stack keybuf : OlcM sizes _) ∅ := by
  induction stack generalizing keybuf with
  | nil => exact .ret
  | cons centry stack ih =>
    refine leaves_checked ?_ .ret
    refine .bind (leaves_reading _ _ _) fun cnxt => .bind (.lift (.inr rfl)) fun cnxt => ?_
    cases cnxt with
    | none => exact .bind (.lift (.inr rfl)) fun keybuf => leaves_checked ih .ret
    | some e =>
      refine .bind (leaves_reading _ _ _) fun nchild => leaves_checked ?_ .ret
      exact .bind (.lift (.inr rfl)) fun nchild => leaves_tryTraversal

variable [ArtKey κ] {k remainingKey : κ}

theorem leaves_seekLeaf : Leaves limit t ∅ (seekLeaf fuel k fwd node nodeCs it : OlcM sizes _) ∅ := by
  refine .bind (leaves_readKey _) fun key => leaves_checked (.ite .ret (.ite .ret ?_)) .ret
  exact .bind leaves_tryAdvance fun _ => .ret

omit [ArtKey κ] in
theorem leaves_seekFork {keyByte prefixByte : UInt8} :
    Leaves limit t ∅ (seekFork fuel fwd keyByte prefixByte node parentCs nodeCs it : OlcM sizes _) ∅ := by
  refine .bind leaves_tryTraversal fun r => leaves_checked ?_ .ret
  split
  · split
    · exact .ret
    · exact .bind leaves_tryAdvance fun _ => .ret
  · exact .ret

omit [ArtKey κ] in
theorem leaves_seekGap {keyByte : UInt8} :
    Leaves limit t ∅ (seekGap fuel fwd keyByte node parentCs nodeCs it : OlcM sizes _) ∅ := by
  refine .bind (leaves_reading _ _ _) fun nxt => ?_
  cases nxt with
  | none =>
    refine leaves_checked (leaves_checked ?_ .ret) .ret
    split
    · exact .ret
    · exact .bind (.lift (.inr rfl)) fun keybuf => .bind leaves_tryUnwind fun _ => .ret
  | some tmp =>
    refine .bind (leaves_reading _ _ _) fun child => leaves_checked (leaves_checked ?_ .ret) .ret
    exact .bind (.lift (.inr rfl)) fun it => .bind (.lift (.inr rfl)) fun child =>
      .bind leaves_tryTraversal fun _ => .ret

theorem leaves_seekLoop {rounds : Nat} :
    Leaves limit t ∅ (seekLoop fuel k fwd rounds node parentCs remainingKey it : OlcM sizes _) ∅ := by
  induction rounds generalizing node parentCs remainingKey it with
  | zero => exact .throw fun _ => rfl
  | succ rounds ih =>
    refine .bind (leaves_tryReadLock _) fun cs => ?_
    cases cs with
    | none => exact .ret
    | some nodeCs =>
      refine leaves_checked ?_ .ret
      split
      · exact leaves_checked leaves_seekLeaf .ret
      · refine .bind (leaves_reading _ _ _) fun keyPrefix => ?_
        dsimp only
        split
        · exact .bind (.lift (.inr rfl)) fun _ => .bind (.lift (.inr rfl)) fun _ =>
            .bind (.lift (.inr rfl)) fun _ => leaves_seekFork
        · refine .bind (.lift (.inr rfl)) fun remainingKey => .bind (.lift (.inr rfl)) fun keyByte =>
            .bind (leaves_reading _ _ _) fun found => ?_
          cases found with
          | none => exact leaves_seekGap
          | some r =>
            refine .bind (.lift (.inr rfl)) fun it => .bind (leaves_loadChild _ _) fun child =>
              .bind (.lift (.inr rfl)) fun remainingKey => leaves_checked ?_ .ret
            exact .bind (.lift (.inr rfl)) fun child => ih

theorem leaves_trySeek : Leaves limit t ∅ (trySeek fuel k fwd it : OlcM sizes _) ∅ := by
  refine .bind (leaves_tryReadLock _) fun cs => ?_
  cases cs with
  | none => exact .ret
  | some parentCs =>
    refine .bind leaves_loadRoot fun root => ?_
    cases root with
    | none => exact leaves_checked .ret .ret
    | some node => exact leaves_checked leaves_seekLoop .ret

end Reading

end OlcDb

end Unodb
