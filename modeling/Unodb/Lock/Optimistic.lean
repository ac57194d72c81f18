import Unodb.Node.Layout
import Unodb.Util.Runs

/-!
# The optimistic lock (`optimistic_lock.hpp`)

One lock and the read critical sections and write guards that any number of threads make of it.
Every step is one access to the lock word, and the steps of all threads interleave in any order.
-/

namespace Unodb

/-- `optimistic_lock::version_type`: bit 0 is the obsolete state, bit 1 the write lock, the other
    bits count the versions. -/
structure Version where
  version : BitVec 64
deriving DecidableEq, Repr

namespace Version

/-- `obsolete_lock_word`. -/
def obsoleteLockWord : BitVec 64 := 1

/-- `is_write_locked`. -/
def isWriteLocked (v : Version) : Bool := v.version &&& 2 ≠ 0

/-- `is_free`. -/
def isFree (v : Version) : Bool := v.version &&& 3 = 0

/-- `is_obsolete`. -/
def isObsolete (v : Version) : Bool := v.version = obsoleteLockWord

/-- `set_locked_bit`. -/
def setLockedBit (v : Version) : Except Fault Version := do
  assertThat (v.isFree)
  return ⟨v.version + 2⟩

end Version

/-- A local variable of a thread. -/
structure Var where
  thread : Nat
  name : Nat
deriving DecidableEq

/-- `read_critical_section`; `lock` tells whether its lock pointer is not null. -/
structure ReadCriticalSection where
  lock : Bool := false
  version : Version := ⟨0⟩
deriving DecidableEq

/-- `write_guard`: its lock pointer is null, or it is not.  Between the load and the store of
    `write_unlock` it has the old lock word at hand. -/
inductive WriteGuard where
  | inactive
  | active
  | unlocking (oldLockWord : Version)
deriving DecidableEq

/-- A lock with the objects made of it, and the versions that `get` has told. -/
structure OptimisticLock where
  word : Version
  sections : Var → ReadCriticalSection
  guards : Var → WriteGuard
  tags : List Version

namespace OptimisticLock

/-- A new lock, before any thread uses it. -/
def init : OptimisticLock where
  word := ⟨0⟩
  sections _ := {}
  guards _ := .inactive
  tags := []

/-- The accesses of a thread to the lock and to its sections and guards. -/
inductive Access where
  /-- `x = lock.try_read_lock()`, one round of its loop. -/
  | tryReadLock (x : Var)
  /-- `x = lock.rehydrate_read_lock(tag)`. -/
  | rehydrateReadLock (x : Var) (tag : Version)
  /-- `x.get()`. -/
  | get (x : Var)
  /-- `x = std::move(y)`. -/
  | move (x y : Var)
  /-- `x.check()`. -/
  | check (x : Var)
  /-- `x.try_read_unlock()`. -/
  | tryReadUnlock (x : Var)
  /-- `write_guard g{std::move(x)}`. -/
  | writeGuard (g x : Var)
  /-- The load of `write_unlock`, called by `g.unlock()` or by the destructor of `g`. -/
  | unlockLoad (g : Var)
  /-- The store of `write_unlock`. -/
  | unlockStore (g : Var)
  /-- `g.unlock_and_obsolete()`. -/
  | unlockAndObsolete (g : Var)
deriving DecidableEq

/-- What an access returns. -/
inductive Reply where
  | done
  /-- The loop of `try_read_lock` goes on. -/
  | spin
  /-- A section that need not restart. -/
  | locked (version : Version)
  /-- A section that must restart. -/
  | mustRestart
  /-- A check or an upgrade, successful or not. -/
  | result (ok : Bool)
deriving DecidableEq

/-- The preconditions of the accesses: a section is used only if it need not restart, a tag comes
    from the lock, a guard is made once and unlocked once. -/
def Allows (s : OptimisticLock) : Access → Prop
  | .tryReadLock _ | .move _ _ => True
  | .rehydrateReadLock _ tag => tag ∈ s.tags
  | .get x | .check x | .tryReadUnlock x => (s.sections x).lock
  | .writeGuard g x => (s.sections x).lock ∧ s.guards g = .inactive
  | .unlockLoad g | .unlockAndObsolete g => s.guards g = .active
  | .unlockStore g => ∃ old, s.guards g = .unlocking old

def setSection (s : OptimisticLock) (x : Var) (r : ReadCriticalSection) : OptimisticLock :=
  { s with sections := Function.update s.sections x r }

def setGuard (s : OptimisticLock) (g : Var) (w : WriteGuard) : OptimisticLock :=
  { s with guards := Function.update s.guards g w }

/-- One access.  The debug builds also reset the lock pointer of a section that was unlocked, moved
    from or found invalid; what they allow afterwards is allowed here too. -/
def access (s : OptimisticLock) : Access → Except Fault (OptimisticLock × Reply)
  | .tryReadLock x =>
    let currentVersion := s.word
    -- No write lock, not obsolete: the version to compare with later.
    if currentVersion.isFree then
      return (s.setSection x ⟨true, currentVersion⟩, .locked currentVersion)
    else if currentVersion.isObsolete then return (s.setSection x {}, .mustRestart)
    else do
      -- Write-locked: the source spins.
      assertThat (currentVersion.isWriteLocked)
      return (s, .spin)
  | .rehydrateReadLock x tag => return (s.setSection x ⟨true, tag⟩, .done)
  | .get x => return ({ s with tags := (s.sections x).version :: s.tags }, .done)
  | .move x y => return (s.setSection x (s.sections y), .done)
  -- A check and an unlock compare the same words; they differ in what they leave of the section.
  | .check x | .tryReadUnlock x => return (s, .result ((s.sections x).version = s.word))
  | .writeGuard g x => do
    let lockedVersion := (s.sections x).version
    let newVal ← lockedVersion.setLockedBit
    -- The compare-exchange on the version of the section.
    if lockedVersion = s.word then
      return ({ s with word := newVal }.setGuard g .active, .result true)
    else return (s, .result false)
  | .unlockLoad g => do
    -- The unlocking thread is the only writer: its load and its store need not be one access.
    let oldLockWord := s.word
    assertThat (oldLockWord.isWriteLocked)
    return (s.setGuard g (.unlocking oldLockWord), .done)
  | .unlockStore g =>
    match s.guards g with
    | .unlocking oldLockWord =>
      -- 2 is added to the locked word: the locked bit is carried into the version.
      return ({ s with word := ⟨oldLockWord.version + 2⟩ }.setGuard g .inactive, .done)
    | _ => throw .badAccess
  | .unlockAndObsolete g => do
    let oldLockWord := s.word
    assertThat (!oldLockWord.isObsolete)
    assertThat (oldLockWord.isWriteLocked)
    -- An obsolete lock is never free again.
    return ({ s with word := ⟨Version.obsoleteLockWord⟩ }.setGuard g .inactive, .done)

/-- A step of some thread, with what it did and what that returned. -/
def Step (s : OptimisticLock) (e : Access × Reply) (s' : OptimisticLock) : Prop :=
  s.Allows e.1 ∧ s.access e.1 = .ok (s', e.2)

/-- A guard that holds the write lock. -/
def Holds (s : OptimisticLock) (g : Var) : Prop := s.guards g ≠ .inactive

/-- The number of write acquisitions among some events. -/
def acquisitions (es : List (Access × Reply)) : Nat :=
  es.countP fun e => match e with
    | (.writeGuard _ _, .result true) => true
    | _ => false

/-! ## 1. Lock words -/

end OptimisticLock

theorem Version.isFree_iff (v : Version) : v.isFree = true ↔ v.version.toNat % 4 = 0 := by
  have hmod : v.version.toNat &&& 3 = v.version.toNat % 4 :=
    Nat.and_two_pow_sub_one_eq_mod v.version.toNat 2
  simp only [isFree, decide_eq_true_eq, ← BitVec.toNat_inj, BitVec.toNat_and]
  show v.version.toNat &&& 3 = 0 ↔ _
  rw [hmod]

theorem Version.isWriteLocked_of_mod {v : Version} (h : v.version.toNat % 4 = 2) :
    v.isWriteLocked = true := by
  simp only [isWriteLocked, decide_eq_true_eq]
  intro hzero
  have hbit : (v.version &&& 2).getLsbD 1 = false := by rw [hzero]; rfl
  rw [BitVec.getLsbD_and, ← BitVec.testBit_toNat, Nat.testBit_eq_decide_div_mod_eq] at hbit
  simp at hbit
  omega

theorem Version.isObsolete_iff (v : Version) :
    v.isObsolete = true ↔ v = ⟨obsoleteLockWord⟩ := by
  cases v
  simp [isObsolete]

theorem Version.ext_toNat {v w : Version} (h : v.version.toNat = w.version.toNat) : v = w := by
  cases v
  cases w
  rw [Version.mk.injEq]
  exact BitVec.eq_of_toNat_eq h

namespace OptimisticLock

variable {s s' : OptimisticLock} {es es' : List (Access × Reply)} {e : Access × Reply}

/-! ## 2. What a step can do -/

theorem Step.unique (h : Step s e s') {s'' : OptimisticLock} (h' : Step s e s'') : s' = s'' := by
  have heq := h.2.symm.trans h'.2
  rw [Except.ok.injEq, Prod.mk.injEq] at heq
  exact heq.1

theorem Step.tryReadLock {x : Var} {r : Reply} (h : Step s (.tryReadLock x, r) s') :
    (s.word.isFree = true ∧ s' = s.setSection x ⟨true, s.word⟩ ∧ r = .locked s.word) ∨
    (s' = s.setSection x {} ∧ r = .mustRestart) ∨ (s.word.isObsolete = false ∧ s' = s ∧ r = .spin) := by
  have hacc := h.2
  simp only [access] at hacc
  split at hacc
  case isTrue hfree =>
    cases hacc
    exact .inl ⟨hfree, rfl, rfl⟩
  case isFalse =>
    split at hacc
    case isTrue =>
      cases hacc
      exact .inr (.inl ⟨rfl, rfl⟩)
    case isFalse hlive =>
      unfold assertThat at hacc
      split at hacc
      · cases hacc
        exact .inr (.inr ⟨Bool.eq_false_iff.mpr hlive, rfl, rfl⟩)
      · cases hacc

theorem Step.writeGuard {g x : Var} {r : Reply} (h : Step s (.writeGuard g x, r) s') :
    ((s.sections x).version = s.word ∧ r = .result true ∧
      s' = { s with word := ⟨s.word.version + 2⟩ }.setGuard g .active) ∨
    ((s.sections x).version ≠ s.word ∧ r = .result false ∧ s' = s) := by
  have hacc := h.2
  by_cases hfree : (s.sections x).version.isFree = true
  · simp only [access, Version.setLockedBit, assertThat_pos hfree, bind, Except.bind] at hacc
    change (if _ then _ else _) = _ at hacc
    split at hacc
    case isTrue heq =>
      cases hacc
      exact .inl ⟨heq, rfl, by rw [heq]⟩
    case isFalse hne =>
      cases hacc
      exact .inr ⟨hne, rfl, rfl⟩
  · simp only [access, Version.setLockedBit, assertThat, if_neg hfree] at hacc
    cases hacc

theorem Step.unlockLoad {g : Var} {r : Reply} (h : Step s (.unlockLoad g, r) s') :
    s.guards g = .active ∧ s' = s.setGuard g (.unlocking s.word) := by
  obtain ⟨hactive, hacc⟩ := h
  refine ⟨hactive, ?_⟩
  simp only [access, assertThat] at hacc
  split at hacc
  · cases hacc
    rfl
  · cases hacc

theorem Step.unlockStore {g : Var} {r : Reply} (h : Step s (.unlockStore g, r) s') :
    ∃ old, s.guards g = .unlocking old ∧
      s' = { s with word := ⟨old.version + 2⟩ }.setGuard g .inactive := by
  obtain ⟨⟨old, hold⟩, hacc⟩ := h
  simp only [access, hold] at hacc
  cases hacc
  exact ⟨old, hold, rfl⟩

theorem Step.unlockAndObsolete {g : Var} {r : Reply} (h : Step s (.unlockAndObsolete g, r) s') :
    s.guards g = .active ∧
      s' = { s with word := ⟨Version.obsoleteLockWord⟩ }.setGuard g .inactive := by
  obtain ⟨hactive, hacc⟩ := h
  refine ⟨hactive, ?_⟩
  by_cases hlive : (!s.word.isObsolete) = true
  · by_cases hlocked : s.word.isWriteLocked = true
    · simp only [access, assertThat_pos hlive, assertThat_pos hlocked] at hacc
      cases hacc
      rfl
    · simp only [access, assertThat, if_pos hlive, if_neg hlocked] at hacc
      cases hacc
  · simp only [access, assertThat, if_neg hlive] at hacc
    cases hacc

/-- A check, an unlock or an upgrade of a section. -/
def Uses (c : Access) (x : Var) : Prop :=
  c = .check x ∨ c = .tryReadUnlock x ∨ ∃ g, c = .writeGuard g x

/-- It succeeds exactly where the word has the version of the section. -/
theorem Step.result_iff {c : Access} {x : Var} {r : Reply} (h : Step s (c, r) s')
    (hc : Uses c x) : (s.sections x).lock = true ∧ r = .result ((s.sections x).version = s.word) := by
  rcases hc with rfl | rfl | ⟨g, rfl⟩
  · obtain ⟨hlock, hacc⟩ := h
    cases hacc
    exact ⟨hlock, rfl⟩
  · obtain ⟨hlock, hacc⟩ := h
    cases hacc
    exact ⟨hlock, rfl⟩
  · refine ⟨h.1.1, ?_⟩
    rcases h.writeGuard with ⟨heq, rfl, -⟩ | ⟨hne, rfl, -⟩
    · rw [decide_eq_true heq]
    · rw [decide_eq_false hne]

theorem setGuard_holds {g g' : Var} {w : WriteGuard} (h : (s.setGuard g' w).Holds g) :
    s.Holds g ∨ (g' = g ∧ w ≠ .inactive) := by
  by_cases heq : g = g'
  · subst heq
    exact .inr ⟨rfl, by simpa [Holds, setGuard] using h⟩
  · exact .inl (by simpa [Holds, setGuard, heq] using h)

/-- A guard holds the lock after a step only if it did before, or has just acquired it. -/
theorem Step.holds {g : Var} (h : Step s e s') (hg : s'.Holds g) :
    s.Holds g ∨ ∃ x, e = (.writeGuard g x, .result true) := by
  obtain ⟨c, r⟩ := e
  cases c with
  | tryReadLock x =>
    rcases h.tryReadLock with ⟨-, rfl, -⟩ | ⟨rfl, -⟩ | ⟨-, rfl, -⟩ <;> exact .inl hg
  | rehydrateReadLock | get | move | check | tryReadUnlock =>
    obtain ⟨-, hacc⟩ := h
    cases hacc
    exact .inl hg
  | writeGuard g' x =>
    rcases h.writeGuard with ⟨-, rfl, rfl⟩ | ⟨-, -, rfl⟩
    · rcases setGuard_holds hg with hg | ⟨rfl, -⟩
      · exact .inl hg
      · exact .inr ⟨x, rfl⟩
    · exact .inl hg
  | unlockLoad g' =>
    obtain ⟨hactive, rfl⟩ := h.unlockLoad
    rcases setGuard_holds hg with hg | ⟨rfl, -⟩
    · exact .inl hg
    · exact .inl (by rw [Holds, hactive]; simp)
  | unlockStore g' =>
    obtain ⟨old, -, rfl⟩ := h.unlockStore
    rcases setGuard_holds hg with hg | ⟨-, hw⟩
    · exact .inl hg
    · exact absurd rfl hw
  | unlockAndObsolete g' =>
    obtain ⟨-, rfl⟩ := h.unlockAndObsolete
    rcases setGuard_holds hg with hg | ⟨-, hw⟩
    · exact .inl hg
    · exact absurd rfl hw

/-! ## 3. The invariant -/

/-- The word tells how often the lock was acquired and whether a guard holds it. -/
inductive Phase (n : Nat) (s : OptimisticLock) : Prop where
  | free : s.word.version.toNat = 4 * n → (∀ g, s.guards g = .inactive) → Phase n s
  | held (g : Var) : s.word.version.toNat + 2 = 4 * n →
      s.guards g = .active ∨ s.guards g = .unlocking s.word →
      (∀ g', g' ≠ g → s.guards g' = .inactive) → Phase n s
  | obsolete : s.word = ⟨Version.obsoleteLockWord⟩ → (∀ g, s.guards g = .inactive) → Phase n s

/-- A version that some thread has got from the lock. -/
def Obtained (es : List (Access × Reply)) (v : Version) : Prop :=
  ∃ x, (.tryReadLock x, .locked v) ∈ es

structure Inv (es : List (Access × Reply)) (s : OptimisticLock) : Prop where
  phase : Phase (acquisitions es) s
  sections : ∀ x, (s.sections x).lock = true → Obtained es (s.sections x).version
  tags : ∀ v ∈ s.tags, Obtained es v
  isFree : ∀ v, Obtained es v → v.isFree = true

theorem acquisitions_append (es es' : List (Access × Reply)) :
    acquisitions (es ++ es') = acquisitions es + acquisitions es' := List.countP_append

theorem acquisitions_eq_zero {c : Access} {r : Reply} (h : ∀ g x, c ≠ .writeGuard g x) :
    acquisitions [(c, r)] = 0 := by
  cases c <;> first | rfl | exact absurd rfl (h _ _)

theorem Obtained.append {v : Version} (h : Obtained es v) (es' : List (Access × Reply)) :
    Obtained (es ++ es') v := by
  obtain ⟨x, hx⟩ := h
  exact ⟨x, List.mem_append_left es' hx⟩

theorem Phase.congr {n : Nat} (h : Phase n s) (hword : s'.word = s.word)
    (hguards : s'.guards = s.guards) : Phase n s' := by
  cases h with
  | free hw hg => exact .free (by rw [hword, hw]) (by rwa [hguards])
  | held g hw hg hother => exact .held g (by rw [hword, hw]) (by rwa [hguards, hword]) (by rwa [hguards])
  | obsolete hw hg => exact .obsolete (by rw [hword, hw]) (by rwa [hguards])

/-- A guard that holds the lock is the only one, and the word is locked. -/
theorem Phase.of_holds {n : Nat} {g : Var} (h : Phase n s) (hg : s.Holds g) :
    s.word.version.toNat + 2 = 4 * n ∧ (s.guards g = .active ∨ s.guards g = .unlocking s.word) ∧
      ∀ g', g' ≠ g → s.guards g' = .inactive := by
  cases h with
  | free _ hnone => exact absurd (hnone g) hg
  | obsolete _ hnone => exact absurd (hnone g) hg
  | held g' hw hg' hother =>
    by_cases heq : g = g'
    · subst heq
      exact ⟨hw, hg', hother⟩
    · exact absurd (hother g heq) hg

theorem Phase.free_of_isFree {n : Nat} (h : Phase n s) (hfree : s.word.isFree = true) :
    s.word.version.toNat = 4 * n ∧ ∀ g, s.guards g = .inactive := by
  rw [Version.isFree_iff] at hfree
  cases h with
  | free hw hg => exact ⟨hw, hg⟩
  | held g hw _ _ => omega
  | obsolete hw _ =>
    rw [hw] at hfree
    cases hfree

theorem Inv.init : Inv [] init where
  phase := .free rfl fun _ => rfl
  sections _ h := by cases h
  tags _ h := by cases h
  isFree _ h := by
    obtain ⟨x, hx⟩ := h
    cases hx

/-- A guard lets the lock go: the word becomes free again or obsolete. -/
theorem Phase.release {n : Nat} {g : Var} {w : Version} (h : Phase n s) (hg : s.Holds g)
    (hw : w.version.toNat = 4 * n ∨ w = ⟨Version.obsoleteLockWord⟩) :
    Phase n ({ s with word := w }.setGuard g .inactive) := by
  obtain ⟨-, -, hother⟩ := h.of_holds hg
  have hnone : ∀ g', Function.update s.guards g .inactive g' = .inactive := by
    intro g'
    by_cases heq : g' = g
    · rw [heq, Function.update_self]
    · rw [Function.update_of_ne heq, hother g' heq]
  rcases hw with hw | hw
  · exact .free hw hnone
  · exact .obsolete hw hnone

/-- A step that leaves the word and the guards alone, and gives the sections no version but one
    that was obtained. -/
theorem Inv.keep (h : Inv es s) (hacq : acquisitions [e] = 0) (hword : s'.word = s.word)
    (hguards : s'.guards = s.guards) (htags : ∀ v ∈ s'.tags, Obtained (es ++ [e]) v)
    (hsections : ∀ x, (s'.sections x).lock = true → Obtained (es ++ [e]) (s'.sections x).version)
    (hfree : ∀ v, Obtained [e] v → v.isFree = true) : Inv (es ++ [e]) s' where
  phase := by
    rw [acquisitions_append, hacq]
    exact h.phase.congr hword hguards
  sections := hsections
  tags := htags
  isFree v hv := by
    obtain ⟨x, hx⟩ := hv
    rcases List.mem_append.mp hx with hx | hx
    · exact h.isFree v ⟨x, hx⟩
    · exact hfree v ⟨x, hx⟩

/-- A step that changes only the word and the guards. -/
theorem Inv.keepSections (h : Inv es s) (hphase : Phase (acquisitions (es ++ [e])) s')
    (hsections : s'.sections = s.sections) (htags : s'.tags = s.tags)
    (hnew : ∀ v, ¬ Obtained [e] v) : Inv (es ++ [e]) s' where
  phase := hphase
  sections x hx := by
    rw [hsections] at hx ⊢
    exact (h.sections x hx).append _
  tags v hv := by
    rw [htags] at hv
    exact (h.tags v hv).append _
  isFree v hv := by
    obtain ⟨x, hx⟩ := hv
    rcases List.mem_append.mp hx with hx | hx
    · exact h.isFree v ⟨x, hx⟩
    · exact absurd ⟨x, hx⟩ (hnew v)

/-- A section variable gets a value whose version, if it has one, was obtained. -/
theorem Inv.setSection (h : Inv es s) (hacq : acquisitions [e] = 0) {x : Var}
    {r : ReadCriticalSection} (hr : r.lock = true → Obtained (es ++ [e]) r.version)
    (hfree : ∀ v, Obtained [e] v → v.isFree = true) : Inv (es ++ [e]) (s.setSection x r) := by
  refine h.keep hacq rfl rfl (fun v hv => (h.tags v hv).append _) ?_ hfree
  intro y hy
  simp only [OptimisticLock.setSection] at hy ⊢
  by_cases hyx : y = x
  · subst hyx
    rw [Function.update_self] at hy ⊢
    exact hr hy
  · rw [Function.update_of_ne hyx] at hy ⊢
    exact (h.sections y hy).append _

theorem not_obtained {c : Access} {r : Reply} (h : ∀ x, c ≠ .tryReadLock x) (v : Version) :
    ¬ Obtained [(c, r)] v := by
  rintro ⟨x, hx⟩
  rw [List.mem_singleton, Prod.mk.injEq] at hx
  exact h x hx.1.symm

theorem Inv.step_tryReadLock (h : Inv es s) {x : Var} {r : Reply}
    (hstep : Step s (.tryReadLock x, r) s') : Inv (es ++ [(.tryReadLock x, r)]) s' := by
  have hnew : ∀ r', (∀ v, r' ≠ .locked v) → ∀ v, ¬ Obtained [(.tryReadLock x, r')] v := by
    rintro r' hr' v ⟨y, hy⟩
    rw [List.mem_singleton, Prod.mk.injEq] at hy
    exact hr' v hy.2.symm
  rcases hstep.tryReadLock with ⟨hfree, rfl, rfl⟩ | ⟨rfl, rfl⟩ | ⟨-, rfl, rfl⟩
  · refine h.setSection rfl (fun _ => ⟨x, List.mem_append_right _ List.mem_cons_self⟩) ?_
    rintro v ⟨y, hy⟩
    rw [List.mem_singleton, Prod.mk.injEq, Reply.locked.injEq] at hy
    rw [hy.2]
    exact hfree
  · exact h.setSection rfl (fun hlock => by cases hlock) fun v hv => absurd hv (hnew _ (by simp) v)
  · exact h.keepSections (by rw [acquisitions_append]; exact h.phase) rfl rfl (hnew _ (by simp))

theorem Inv.step_writeGuard (h : Inv es s) {g x : Var} {r : Reply}
    (hfew : acquisitions (es ++ [(.writeGuard g x, r)]) < 2 ^ 62)
    (hstep : Step s (.writeGuard g x, r) s') : Inv (es ++ [(.writeGuard g x, r)]) s' := by
  have hvfree := h.isFree _ (h.sections x hstep.1.1)
  rcases hstep.writeGuard with ⟨heq, rfl, rfl⟩ | ⟨-, rfl, rfl⟩
  · obtain ⟨hw, hnone⟩ := h.phase.free_of_isFree (heq ▸ hvfree)
    refine h.keepSections ?_ rfl rfl (not_obtained (by simp))
    have hone : acquisitions [(Access.writeGuard g x, Reply.result true)] = 1 := rfl
    rw [acquisitions_append, hone] at hfew ⊢
    refine .held g ?_ (.inl ?_) ?_
    · change (s.word.version.toNat + 2) % 2 ^ 64 + 2 = _
      omega
    · simp [setGuard]
    · intro g' hg'
      simp [setGuard, hg', hnone g']
  · exact h.keepSections (by rw [acquisitions_append]; exact h.phase) rfl rfl
      (not_obtained (by simp))

/-- What a step does to the invariant. -/
theorem Inv.step (h : Inv es s) (hfew : acquisitions (es ++ [e]) < 2 ^ 62) (hstep : Step s e s') :
    Inv (es ++ [e]) s' := by
  obtain ⟨c, r⟩ := e
  cases c with
  | tryReadLock x => exact h.step_tryReadLock hstep
  | writeGuard g x => exact h.step_writeGuard hfew hstep
  | rehydrateReadLock x tag =>
    obtain ⟨htag, hacc⟩ := hstep
    cases hacc
    exact h.setSection rfl (fun _ => (h.tags tag htag).append _)
      fun v hv => absurd hv (not_obtained (by simp) v)
  | get x =>
    obtain ⟨hlock, hacc⟩ := hstep
    cases hacc
    refine h.keep rfl rfl rfl ?_ (fun y hy => (h.sections y hy).append _)
      fun v hv => absurd hv (not_obtained (by simp) v)
    intro v hv
    rcases List.mem_cons.mp hv with rfl | hv
    · exact (h.sections x hlock).append _
    · exact (h.tags v hv).append _
  | move x y =>
    obtain ⟨-, hacc⟩ := hstep
    cases hacc
    exact h.setSection rfl (fun hlock => (h.sections y hlock).append _)
      fun v hv => absurd hv (not_obtained (by simp) v)
  | check x | tryReadUnlock x =>
    obtain ⟨-, hacc⟩ := hstep
    cases hacc
    exact h.keepSections (by rw [acquisitions_append]; exact h.phase) rfl rfl
      (not_obtained (by simp))
  | unlockLoad g =>
    obtain ⟨hactive, rfl⟩ := hstep.unlockLoad
    obtain ⟨hw, -, hother⟩ := h.phase.of_holds (g := g) (by rw [Holds, hactive]; simp)
    refine h.keepSections ?_ rfl rfl (not_obtained (by simp))
    rw [acquisitions_append]
    refine .held g hw (.inr ?_) ?_
    · simp [setGuard]
    · intro g' hg'
      simp [setGuard, hg', hother g' hg']
  | unlockStore g =>
    obtain ⟨old, hold, rfl⟩ := hstep.unlockStore
    have hholds : s.Holds g := by rw [Holds, hold]; simp
    obtain ⟨hw, hunlocking, -⟩ := h.phase.of_holds hholds
    rw [hold] at hunlocking
    obtain rfl : old = s.word := by simpa using hunlocking
    refine h.keepSections ?_ rfl rfl (not_obtained (by simp))
    rw [acquisitions_append] at hfew ⊢
    refine h.phase.release hholds (.inl ?_)
    change (s.word.version.toNat + 2) % 2 ^ 64 = _
    omega
  | unlockAndObsolete g =>
    obtain ⟨hactive, rfl⟩ := hstep.unlockAndObsolete
    have hholds : s.Holds g := by rw [Holds, hactive]; simp
    refine h.keepSections ?_ rfl rfl (not_obtained (by simp))
    rw [acquisitions_append]
    exact h.phase.release hholds (.inr rfl)

/-- The invariant holds in every run with fewer than `2 ^ 62` write acquisitions. -/
theorem inv_of_run (hrun : Run Step init es s) (hfew : acquisitions es < 2 ^ 62) : Inv es s := by
  have hinv : acquisitions ([] ++ es) < 2 ^ 62 → Inv ([] ++ es) s := by
    refine hrun.invariant_with (I := fun es s => acquisitions es < 2 ^ 62 → Inv es s) ?_
      fun _ => Inv.init
    intro es s e s' h hstep hfew
    refine (h ?_).step hfew hstep
    rw [acquisitions_append] at hfew
    omega
  exact hinv hfew

/-- No assertion fails. -/
theorem Inv.access_ok (h : Inv es s) {c : Access} (hc : s.Allows c) :
    ∃ s' r, s.access c = .ok (s', r) := by
  cases c with
  | tryReadLock x =>
    simp only [access]
    split
    · exact ⟨_, _, rfl⟩
    · rename_i hbusy
      split
      · exact ⟨_, _, rfl⟩
      · rename_i hlive
        have hlocked : s.word.isWriteLocked = true := by
          cases h.phase with
          | free hw _ => exact absurd ((Version.isFree_iff _).mpr (by omega)) hbusy
          | held _ hw _ _ => exact Version.isWriteLocked_of_mod (by omega)
          | obsolete hw _ => exact absurd ((Version.isObsolete_iff _).mpr hw) hlive
        rw [assertThat_pos hlocked]
        exact ⟨_, _, rfl⟩
  | rehydrateReadLock | get | move | check | tryReadUnlock => exact ⟨_, _, rfl⟩
  | writeGuard g x =>
    have hvfree : (s.sections x).version.isFree = true := h.isFree _ (h.sections x hc.1)
    simp only [access, Version.setLockedBit, assertThat_pos hvfree, bind, Except.bind]
    by_cases heq : (s.sections x).version = s.word
    · exact ⟨_, _, if_pos heq⟩
    · exact ⟨_, _, if_neg heq⟩
  | unlockLoad g =>
    have hactive : s.guards g = .active := hc
    obtain ⟨hw, -, -⟩ := h.phase.of_holds (g := g) (by rw [Holds, hactive]; simp)
    simp only [access, assertThat_pos (Version.isWriteLocked_of_mod (v := s.word) (by omega))]
    exact ⟨_, _, rfl⟩
  | unlockStore g =>
    obtain ⟨old, hold⟩ := hc
    simp only [access, hold]
    exact ⟨_, _, rfl⟩
  | unlockAndObsolete g =>
    have hactive : s.guards g = .active := hc
    obtain ⟨hw, -, -⟩ := h.phase.of_holds (g := g) (by rw [Holds, hactive]; simp)
    have hlive : (!s.word.isObsolete) = true := by
      rw [Bool.not_eq_true', Bool.eq_false_iff, ne_eq, Version.isObsolete_iff]
      intro hword
      rw [hword] at hw
      change 1 + 2 = _ at hw
      omega
    simp only [access, assertThat_pos (Version.isWriteLocked_of_mod (v := s.word) (by omega)),
      assertThat_pos hlive]
    exact ⟨_, _, rfl⟩

/-! ## 4. Runs -/

/-- Without an acquisition a lock that is not held stays so. -/
theorem not_holds_of_run (hrun : Run Step s es s') (hacq : acquisitions es = 0)
    (hs : ∀ g, ¬ s.Holds g) (g : Var) : ¬ s'.Holds g := by
  induction hrun with
  | nil => exact hs g
  | @cons s s₁ s' e es hstep _ ih =>
    have hsum : acquisitions (e :: es) = acquisitions [e] + acquisitions es :=
      acquisitions_append [e] es
    refine ih (by omega) fun g' hg' => ?_
    rcases hstep.holds hg' with hg' | ⟨x, rfl⟩
    · exact hs g' hg'
    · have hone : acquisitions [(Access.writeGuard g' x, Reply.result true)] = 1 := rfl
      omega

/-- What an access to an obsolete lock returns. -/
def Refused : Access × Reply → Prop
  | (.tryReadLock _, r) => r = .mustRestart
  | (.check _, r) | (.tryReadUnlock _, r) | (.writeGuard _ _, r) => r = .result false
  | _ => True

/-- An obsolete lock is not held, and no section has its word for a version. -/
theorem Inv.step_obsolete (h : Inv es s) (hword : s.word = ⟨Version.obsoleteLockWord⟩)
    (hstep : Step s e s') : s'.word = s.word ∧ Refused e := by
  have hnone : ∀ g, s.guards g = .inactive := by
    intro g
    by_contra hg
    obtain ⟨hw, -⟩ := h.phase.of_holds (g := g) hg
    rw [hword] at hw
    change 1 + 2 = _ at hw
    omega
  have hrefused : ∀ {c r x}, Step s (c, r) s' → Uses c x → r = .result false := by
    intro c r x hstep hc
    obtain ⟨hlock, rfl⟩ := hstep.result_iff hc
    have hfree := h.isFree _ (h.sections x hlock)
    rw [decide_eq_false]
    intro heq
    rw [heq, hword] at hfree
    exact absurd hfree (by decide)
  obtain ⟨c, r⟩ := e
  cases c with
  | tryReadLock x =>
    rcases hstep.tryReadLock with ⟨hfree, -⟩ | ⟨rfl, rfl⟩ | ⟨hlive, -⟩
    · rw [hword] at hfree
      exact absurd hfree (by decide)
    · exact ⟨rfl, rfl⟩
    · rw [(Version.isObsolete_iff _).mpr hword] at hlive
      cases hlive
  | rehydrateReadLock | get | move =>
    obtain ⟨-, hacc⟩ := hstep
    cases hacc
    exact ⟨rfl, trivial⟩
  | check x =>
    refine ⟨?_, hrefused hstep (.inl rfl)⟩
    obtain ⟨-, hacc⟩ := hstep
    cases hacc
    rfl
  | tryReadUnlock x =>
    refine ⟨?_, hrefused hstep (.inr (.inl rfl))⟩
    obtain ⟨-, hacc⟩ := hstep
    cases hacc
    rfl
  | writeGuard g x =>
    have hr := hrefused hstep (.inr (.inr ⟨g, rfl⟩))
    refine ⟨?_, hr⟩
    rcases hstep.writeGuard with ⟨-, rfl, -⟩ | ⟨-, -, rfl⟩
    · cases hr
    · rfl
  | unlockLoad g =>
    have hactive := hstep.unlockLoad.1
    rw [hnone g] at hactive
    cases hactive
  | unlockStore g =>
    obtain ⟨old, hold, -⟩ := hstep.unlockStore
    rw [hnone g] at hold
    cases hold
  | unlockAndObsolete g =>
    have hactive := hstep.unlockAndObsolete.1
    rw [hnone g] at hactive
    cases hactive

theorem run_obsolete (hrun : Run Step s es' s') (h : Inv es s)
    (hfew : acquisitions es < 2 ^ 62) (hword : s.word = ⟨Version.obsoleteLockWord⟩) :
    s'.word = s.word ∧ ∀ e ∈ es', Refused e := by
  induction hrun generalizing es with
  | nil => exact ⟨rfl, fun e he => by cases he⟩
  | @cons s s₁ s' e es' hstep _ ih =>
    obtain ⟨hword', hrefused⟩ := h.step_obsolete hword hstep
    have hacq : acquisitions (es ++ [e]) = acquisitions es := by
      rw [acquisitions_append]
      obtain ⟨c, r⟩ := e
      cases c with
      | writeGuard g x =>
        have hr : r = .result false := hrefused
        subst hr
        rfl
      | _ => rfl
    obtain ⟨hlast, hall⟩ := ih (h.step (hacq ▸ hfew) hstep) (hacq ▸ hfew) (hword'.trans hword)
    refine ⟨hlast.trans hword', fun e' he' => ?_⟩
    rcases List.mem_cons.mp he' with rfl | he'
    · exact hrefused
    · exact hall e' he'

/-- Between the instant at which a version was obtained and a successful use of it, the lock was
    not held. -/
theorem not_holds_between {es₁ es₂ mid : List (Access × Reply)} {x y : Var} {c : Access}
    {s₁ : OptimisticLock} (hrun : Run Step init es s) (hfew : acquisitions es < 2 ^ 62)
    (huse : Step s (c, .result true) s') (hc : Uses c x)
    (hes : es = es₁ ++ (.tryReadLock y, .locked (s.sections x).version) :: es₂)
    (hmid₁ : es₁ <+: mid) (hmid : mid <+: es) (hrun₁ : Run Step init mid s₁) (g : Var) :
    ¬ s₁.Holds g := by
  obtain ⟨hlock, hresult⟩ := huse.result_iff hc
  have hversion : (s.sections x).version = s.word := by simpa using hresult
  have hinv := inv_of_run hrun hfew
  have hvfree := hinv.isFree _ (hinv.sections x hlock)
  obtain ⟨hw, -⟩ := hinv.phase.free_of_isFree (hversion ▸ hvfree)
  -- The state in which the version was obtained.
  obtain ⟨rest, rfl⟩ := hmid₁
  obtain ⟨s₀, hrun₀, hrest⟩ := hrun₁.exists_append
  subst hes
  obtain ⟨s₀', hrun₀', htail⟩ := hrun.exists_append
  obtain rfl := hrun₀.unique (fun h h' => h.unique h') hrun₀'
  rw [acquisitions_append] at hfew
  have hinv₀ := inv_of_run hrun₀ (by omega)
  cases htail with
  | cons hobtain _ =>
    rcases hobtain.tryReadLock with ⟨hfree, -, hv⟩ | ⟨-, hv⟩ | ⟨-, -, hv⟩
    · obtain ⟨hw₀, hnone₀⟩ := hinv₀.phase.free_of_isFree hfree
      -- The word counts the acquisitions, so there was none in between.
      rw [← Reply.locked.inj hv, hversion, hw] at hw₀
      refine not_holds_of_run hrest ?_ (fun g hg => hg (hnone₀ g)) g
      obtain ⟨last, hlast⟩ := hmid
      have hsum := congrArg acquisitions hlast
      simp only [acquisitions_append] at hsum hw₀
      omega
    · cases hv
    · cases hv

/-- The protocol of the optimistic lock, for any threads and any interleaving: one guard at a time
    holds the lock; a section found valid was not written to since its version was obtained; an
    obsolete lock stays as it is and refuses everything. -/
theorem lock_protocol (hrun : Run Step init es s) (hfew : acquisitions es < 2 ^ 62) :
    (∀ g g', s.Holds g → s.Holds g' → g = g') ∧
    (∀ c x s', Step s (c, .result true) s' → Uses c x →
      Obtained es (s.sections x).version ∧
      ∀ es₁ y es₂, es = es₁ ++ (.tryReadLock y, .locked (s.sections x).version) :: es₂ →
        ∀ mid s₁, es₁ <+: mid → mid <+: es → Run Step init mid s₁ → ∀ g, ¬ s₁.Holds g) ∧
    (s.word.isObsolete = true → ∀ es' s', Run Step s es' s' →
      s'.word = s.word ∧ ∀ e ∈ es', Refused e) := by
  have hinv := inv_of_run hrun hfew
  refine ⟨?_, ?_, ?_⟩
  · intro g g' hg hg'
    obtain ⟨-, -, hother⟩ := hinv.phase.of_holds hg
    by_contra hne
    exact hg' (hother g' (Ne.symm hne))
  · intro c x s' huse hc
    refine ⟨hinv.sections x (huse.result_iff hc).1, ?_⟩
    intro es₁ y es₂ hes mid s₁ hmid₁ hmid hrun₁ g
    exact not_holds_between hrun hfew huse hc hes hmid₁ hmid hrun₁ g
  · intro hobs es' s' hrun'
    exact run_obsolete hrun' hinv hfew ((Version.isObsolete_iff _).mp hobs)

/-- Two threads lock for reading, and the one that upgrades first makes the other one fail. -/
theorem lock_protocol_two :
    let es : List (Access × Reply) := [(.tryReadLock ⟨0, 0⟩, .locked ⟨0⟩),
      (.tryReadLock ⟨1, 0⟩, .locked ⟨0⟩), (.writeGuard ⟨0, 1⟩ ⟨0, 0⟩, .result true),
      (.check ⟨1, 0⟩, .result false), (.unlockAndObsolete ⟨0, 1⟩, .done)]
    ∃ s, Run Step init es s ∧ s.word.isObsolete = true ∧
      ∀ es' s', Run Step s es' s' → s'.word = s.word ∧ ∀ e ∈ es', Refused e := by
  intro es
  obtain ⟨s, hrun, hobs⟩ : ∃ s, Run Step init es s ∧ s.word.isObsolete = true :=
    ⟨_, .cons ⟨trivial, rfl⟩ (.cons ⟨trivial, rfl⟩ (.cons ⟨⟨rfl, rfl⟩, rfl⟩
      (.cons ⟨rfl, rfl⟩ (.cons ⟨rfl, rfl⟩ (.nil _))))), rfl⟩
  exact ⟨s, hrun, hobs, (lock_protocol hrun (by decide)).2.2 hobs⟩

end OptimisticLock

end Unodb
