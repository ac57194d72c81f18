import Unodb.Lock.Optimistic
import Unodb.Olc.Deadlock

/-!
# The 64-bit words of the locks

The locks of an `olc_db` have natural numbers for versions.  In every run each of them is the lock
of `optimistic_lock.hpp` with its 64-bit word, and as long as it is taken for writing fewer than
2^62 times the two tell the threads the same.
-/

namespace Unodb

open OptimisticLock (Access Reply)

namespace LockWord

/-- The word as the source has it. -/
def toVersion : LockWord → Version
  | free version => ⟨BitVec.ofNat 64 (4 * version)⟩
  | locked version _ => ⟨BitVec.ofNat 64 (4 * version + 2)⟩
  | obsolete => ⟨Version.obsoleteLockWord⟩

/-- What `try_read_lock` comes to: a section, another round of its loop, or a restart. -/
def reply : LockWord → Reply
  | free version => .locked (free version).toVersion
  | locked _ _ => .spin
  | obsolete => .mustRestart

/-- The write guards: the one of the thread that has the lock, in a variable of its own. -/
def guards : LockWord → Var → WriteGuard
  | locked _ t => Function.update (fun _ => .inactive) ⟨t, 0⟩ .active
  | _ => fun _ => .inactive

/-- How often a lock with this word has been taken for writing, if it is not obsolete. -/
def TakenTimes (n : Nat) : LockWord → Prop
  | free version => version = n
  | locked version _ => version + 1 = n
  | obsolete => True

/-! ## 1. Words -/

theorem toVersion_mod {version c : Nat} (hc : c < 4) :
    (BitVec.ofNat 64 (4 * version + c)).toNat % 4 = c := by
  rw [BitVec.toNat_ofNat]
  omega

theorem isFree_toVersion (version : Nat) : (free version).toVersion.isFree = true :=
  (Version.isFree_iff _).mpr (toVersion_mod (c := 0) (by decide))

theorem isWriteLocked_toVersion (version t : Nat) :
    (locked version t).toVersion.isWriteLocked = true :=
  Version.isWriteLocked_of_mod (toVersion_mod (c := 2) (by decide))

theorem isFree_locked (version t : Nat) : (locked version t).toVersion.isFree = false := by
  rw [Bool.eq_false_iff, ne_eq, Version.isFree_iff]
  show ¬ (BitVec.ofNat 64 (4 * version + 2)).toNat % 4 = 0
  rw [toVersion_mod (by decide)]
  decide

theorem isObsolete_locked (version t : Nat) : (locked version t).toVersion.isObsolete = false := by
  rw [Bool.eq_false_iff, ne_eq, Version.isObsolete_iff]
  intro heq
  have hmod : (BitVec.ofNat 64 (4 * version + 2)).toNat % 4 = 2 := toVersion_mod (by decide)
  have hword : BitVec.ofNat 64 (4 * version + 2) = 1 := congrArg Version.version heq
  rw [hword] at hmod
  cases hmod

/-- The store of `set_locked_bit`, and of `write_unlock`. -/
theorem toVersion_add (version c : Nat) :
    (⟨BitVec.ofNat 64 (4 * version + c) + 2⟩ : Version) =
      ⟨BitVec.ofNat 64 (4 * version + c + 2)⟩ := by
  rw [BitVec.ofNat_add (4 * version + c) 2]
  rfl

/-- A version that fits is compared as the source compares it. -/
theorem toVersion_eq_iff {word : LockWord} {n version : Nat} (hword : word.TakenTimes n)
    (hn : n < 2 ^ 62) (hversion : version < 2 ^ 62) :
    (free version).toVersion = word.toVersion ↔ word = free version := by
  refine ⟨fun heq => ?_, fun heq => by rw [heq]⟩
  have hnat : (4 * version) % 2 ^ 64 = word.toVersion.version.toNat := by
    rw [← heq]
    exact (BitVec.toNat_ofNat (4 * version) 64).symm
  cases word with
  | free version' =>
    rw [show (free version').toVersion.version.toNat = _ from
      BitVec.toNat_ofNat (4 * version') 64] at hnat
    have hle : version' = n := hword
    rw [show version = version' by omega]
  | locked version' t =>
    rw [show (locked version' t).toVersion.version.toNat = _ from
      BitVec.toNat_ofNat (4 * version' + 2) 64] at hnat
    omega
  | obsolete =>
    have hone : (4 * version) % 2 ^ 64 = 1 := hnat
    omega

end LockWord

/-! ## 2. Steps -/

namespace OptimisticLock

variable {lock : OptimisticLock} {word word' : LockWord} {t : Nat}

/-- The 64-bit lock that a lock of an `olc_db` stands for. -/
structure Depicts (lock : OptimisticLock) (word : LockWord) : Prop where
  word_eq : lock.word = word.toVersion
  guards_eq : lock.guards = word.guards

theorem Depicts.init : OptimisticLock.init.Depicts (.free 0) := ⟨rfl, rfl⟩

theorem setGuard_guards (g : Var) (w : WriteGuard) :
    (lock.setGuard g w).guards = Function.update lock.guards g w := rfl

/-- `try_read_lock` returns what it does for the lock of the `olc_db`. -/
theorem Depicts.tryReadLock (h : lock.Depicts word) (x : Var) :
    ∃ lock', Step lock (.tryReadLock x, word.reply) lock' := by
  have hword := h.word_eq
  cases word with
  | free version =>
    have hfree : lock.word.isFree = true := hword ▸ LockWord.isFree_toVersion version
    refine ⟨lock.setSection x ⟨true, lock.word⟩, trivial, ?_⟩
    simp only [access, hfree, if_true]
    rw [LockWord.reply, ← hword]
    rfl
  | locked version u =>
    have hfree : lock.word.isFree = false := hword ▸ LockWord.isFree_locked version u
    have hlive : lock.word.isObsolete = false := hword ▸ LockWord.isObsolete_locked version u
    have hlocked : lock.word.isWriteLocked = true :=
      hword ▸ LockWord.isWriteLocked_toVersion version u
    refine ⟨lock, trivial, ?_⟩
    simp only [access, hfree, hlive, assertThat_pos hlocked]
    rfl
  | obsolete =>
    refine ⟨lock.setSection x {}, trivial, ?_⟩
    simp only [access, hword]
    rfl

/-- A successful upgrade: the thread has begun a section, and the word is still the same. -/
theorem Depicts.acquire {version : Nat} (h : lock.Depicts (.free version)) :
    ∃ es lock', Run Step lock es lock' ∧ lock'.Depicts (.locked version t) ∧ acquisitions es = 1 := by
  have hfree : lock.word.isFree = true := h.word_eq ▸ LockWord.isFree_toVersion version
  have hread : Step lock (.tryReadLock ⟨t, 1⟩, .locked lock.word)
      (lock.setSection ⟨t, 1⟩ ⟨true, lock.word⟩) := by
    refine ⟨trivial, ?_⟩
    simp only [access, hfree, if_true]
    rfl
  have hguards : lock.guards = fun _ => .inactive := h.guards_eq
  have hupgrade : Step (lock.setSection ⟨t, 1⟩ ⟨true, lock.word⟩)
      (.writeGuard ⟨t, 0⟩ ⟨t, 1⟩, .result true)
      ({ lock.setSection ⟨t, 1⟩ ⟨true, lock.word⟩ with
        word := ⟨lock.word.version + 2⟩ }.setGuard ⟨t, 0⟩ .active) := by
    have hsection : (lock.setSection ⟨t, 1⟩ ⟨true, lock.word⟩).sections ⟨t, 1⟩ =
        ⟨true, lock.word⟩ := Function.update_self ..
    refine ⟨⟨by rw [hsection], congrFun hguards ⟨t, 0⟩⟩, ?_⟩
    simp only [access, hsection, Version.setLockedBit, assertThat_pos hfree]
    exact if_pos rfl
  refine ⟨_, _, .cons hread (.cons hupgrade (.nil _)), ⟨?_, ?_⟩, rfl⟩
  · show (⟨lock.word.version + 2⟩ : Version) = _
    rw [h.word_eq]
    exact LockWord.toVersion_add version 0
  · rw [setGuard_guards]
    exact congrArg (Function.update · ⟨t, 0⟩ WriteGuard.active) hguards

theorem Depicts.active {version : Nat} (h : lock.Depicts (.locked version t)) :
    lock.guards ⟨t, 0⟩ = .active := by
  rw [h.guards_eq]
  exact Function.update_self (⟨t, 0⟩ : Var) WriteGuard.active fun _ => WriteGuard.inactive

/-- The guard of the thread is no longer active. -/
theorem Depicts.deactivate {version : Nat} (h : lock.Depicts (.locked version t)) :
    Function.update lock.guards ⟨t, 0⟩ .inactive = fun _ => .inactive := by
  rw [h.guards_eq]
  refine (Function.update_idem ..).trans ?_
  exact Function.update_eq_self (⟨t, 0⟩ : Var) fun _ => WriteGuard.inactive

/-- `write_unlock`. -/
theorem Depicts.release {version : Nat} (h : lock.Depicts (.locked version t)) :
    ∃ es lock', Run Step lock es lock' ∧ lock'.Depicts (.free (version + 1)) ∧
      acquisitions es = 0 := by
  have hlocked : lock.word.isWriteLocked = true :=
    h.word_eq ▸ LockWord.isWriteLocked_toVersion version t
  have hload : Step lock (.unlockLoad ⟨t, 0⟩, .done)
      (lock.setGuard ⟨t, 0⟩ (.unlocking lock.word)) := by
    refine ⟨h.active, ?_⟩
    simp only [access, assertThat_pos hlocked]
    rfl
  have hold : (lock.setGuard ⟨t, 0⟩ (.unlocking lock.word)).guards ⟨t, 0⟩ = .unlocking lock.word :=
    Function.update_self ..
  have hstore : Step (lock.setGuard ⟨t, 0⟩ (.unlocking lock.word)) (.unlockStore ⟨t, 0⟩, .done)
      ({ lock.setGuard ⟨t, 0⟩ (.unlocking lock.word) with
        word := ⟨lock.word.version + 2⟩ }.setGuard ⟨t, 0⟩ .inactive) := by
    refine ⟨⟨_, hold⟩, ?_⟩
    simp only [access, hold]
    rfl
  refine ⟨_, _, .cons hload (.cons hstore (.nil _)), ⟨?_, ?_⟩, rfl⟩
  · show (⟨lock.word.version + 2⟩ : Version) = _
    rw [h.word_eq]
    exact LockWord.toVersion_add version 2
  · rw [setGuard_guards]
    show Function.update (Function.update lock.guards ⟨t, 0⟩ _) ⟨t, 0⟩ _ = _
    rw [Function.update_idem]
    exact h.deactivate

/-- `unlock_and_obsolete`. -/
theorem Depicts.retire {version : Nat} (h : lock.Depicts (.locked version t)) :
    ∃ es lock', Run Step lock es lock' ∧ lock'.Depicts .obsolete ∧ acquisitions es = 0 := by
  have hlocked : lock.word.isWriteLocked = true :=
    h.word_eq ▸ LockWord.isWriteLocked_toVersion version t
  have hlive : (!lock.word.isObsolete) = true := by
    rw [h.word_eq, LockWord.isObsolete_locked]
    rfl
  have hstep : Step lock (.unlockAndObsolete ⟨t, 0⟩, .done)
      ({ lock with word := ⟨Version.obsoleteLockWord⟩ }.setGuard ⟨t, 0⟩ .inactive) := by
    refine ⟨h.active, ?_⟩
    simp only [access, assertThat_pos hlive, assertThat_pos hlocked]
    rfl
  exact ⟨_, _, .cons hstep (.nil _), ⟨rfl, h.deactivate⟩, rfl⟩

end OptimisticLock

/-! ## 3. Runs -/

namespace OlcSystem

open OlcDb

variable {κ : Type} [StoredKey κ] {s : OlcSystem sizes κ}

/-- The event shows some thread taking the lock for writing. -/
def Event.takes (e : Event) (l : Site) : Bool := e.acquires e.thread l

/-- A step of a thread, as the accesses of one lock. -/
theorem Event.depicts {e : Event} {l : Site} {lock : OptimisticLock} {n : Nat}
    (hmove : LockMove e.thread (e.before l) (e.after l)) (h : lock.Depicts (e.before l))
    (hn : (e.before l).TakenTimes n) :
    ∃ accesses lock', Run OptimisticLock.Step lock accesses lock' ∧
      OptimisticLock.acquisitions accesses = (e.takes l).toNat ∧ lock'.Depicts (e.after l) ∧
      (e.after l).TakenTimes (n + (e.takes l).toNat) := by
  obtain ⟨t, before, after⟩ := e
  simp only [Event.takes, Event.acquires] at *
  generalize before l = word at *
  generalize after l = word' at *
  cases hmove with
  | same word => cases word <;> exact ⟨[], lock, .nil lock, rfl, h, hn⟩
  | acquire version =>
    obtain ⟨accesses, lock', hrun, hdepicts, hone⟩ := h.acquire (t := t)
    have hversion : version = n := hn
    refine ⟨accesses, lock', hrun, ?_, hdepicts, ?_⟩
    · simp [hone]
    · simp [LockWord.TakenTimes, hversion]
  | release version =>
    obtain ⟨accesses, lock', hrun, hdepicts, hzero⟩ := h.release
    exact ⟨accesses, lock', hrun, hzero, hdepicts, hn⟩
  | retire version =>
    obtain ⟨accesses, lock', hrun, hdepicts, hzero⟩ := h.retire
    exact ⟨accesses, lock', hrun, hzero, hdepicts, trivial⟩

/-- A lock of the `olc_db` after some events, and a run of the 64-bit lock that it stands for. -/
def Words (es : List Event) (l : Site) (word : LockWord) : Prop :=
  ∃ accesses lock, Run OptimisticLock.Step .init accesses lock ∧
    OptimisticLock.acquisitions accesses = es.countP (·.takes l) ∧
    lock.Depicts word ∧ word.TakenTimes (es.countP (·.takes l))

theorem Words.step {es : List Event} {e : Event} {l : Site} (h : Words es l (e.before l))
    (hmove : LockMove e.thread (e.before l) (e.after l)) : Words (es ++ [e]) l (e.after l) := by
  obtain ⟨accesses, lock, hrun, hcount, hdepicts, htaken⟩ := h
  obtain ⟨more, lock', hrun', hcount', hdepicts', htaken'⟩ := Event.depicts hmove hdepicts htaken
  have hone : [e].countP (·.takes l) = (e.takes l).toNat := by
    rw [List.countP_singleton]
    cases e.takes l <;> rfl
  refine ⟨accesses ++ more, lock', hrun.append hrun', ?_, hdepicts', ?_⟩
  · rw [OptimisticLock.acquisitions_append, List.countP_append, hcount, hcount', hone]
  · rw [List.countP_append, hone]
    exact htaken'

/-- Every lock of an `olc_db` is one of `optimistic_lock.hpp` that threads have used: `try_read_lock`
    returns what it would return there, and while the versions fit into the word, the versions that
    checks and upgrades compare are the same exactly where the words are. -/
theorem word_of_run {es : List Event} (hrun : Run Step (init sizes) es s) (l : Site) :
    ∃ accesses lock, Run OptimisticLock.Step .init accesses lock ∧
      OptimisticLock.acquisitions accesses = es.countP (·.takes l) ∧
      lock.word = (s.db.lock l).toVersion ∧
      (∀ x, ∃ lock', OptimisticLock.Step lock (.tryReadLock x, (s.db.lock l).reply) lock') ∧
      (es.countP (·.takes l) < 2 ^ 62 → ∀ version < 2 ^ 62,
        (LockWord.free version).toVersion = lock.word ↔ s.db.lock l = .free version) := by
  have hstart : (init sizes : OlcSystem sizes κ).Disciplined ∧ Words [] l (.free 0) :=
    ⟨disciplined_init, [], .init, .nil _, rfl, .init, rfl⟩
  have hwords : Words es l (s.db.lock l) := by
    refine (Run.invariant_with (I := fun es s => s.Disciplined ∧ Words es l (s.db.lock l)) ?_ hrun
      hstart).2
    rintro es s ⟨t, before, after⟩ s' ⟨hs, hwords⟩ ⟨hmoves, rfl, rfl⟩
    obtain ⟨hs', hmove⟩ := hs.moves hmoves
    exact ⟨hs', hwords.step (e := ⟨t, s.db.lock, s'.db.lock⟩) (hmove l)⟩
  obtain ⟨accesses, lock, haccesses, hcount, hdepicts, htaken⟩ := hwords
  refine ⟨accesses, lock, haccesses, hcount, hdepicts.word_eq, hdepicts.tryReadLock, ?_⟩
  intro hfew version hversion
  rw [hdepicts.word_eq]
  exact LockWord.toVersion_eq_iff htaken hfew hversion

end OlcSystem

end Unodb
