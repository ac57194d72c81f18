import Unodb.Node.Layout

/-!
# The QSBR state word (`qsbr_state`)

The epoch, the number of threads and the number of threads in the previous epoch share one word.
Every operation on the word is given with its assertions, and then as an operation on the three
fields.
-/

namespace Unodb

/-- `qsbr_epoch`, which is counted modulo 4. -/
abbrev Epoch := Fin 4

/-- `qsbr_epoch::advance`. -/
def Epoch.advance (e : Epoch) (by_ : Nat) : Epoch := Fin.ofNat 4 (e.val + by_)

/-- The epoch that counting starts with. -/
def Epoch.first : Epoch := 0

namespace QsbrState

/-- `max_qsbr_threads`. -/
def maxQsbrThreads : Nat := 2 ^ 30 - 1

/-- `threads_in_previous_epoch_in_word_mask`. -/
def threadsInPreviousEpochInWordMask : BitVec 64 := BitVec.ofNat 64 maxQsbrThreads

/-- `thread_count_in_word_mask`. -/
def threadCountInWordMask : BitVec 64 := BitVec.ofNat 64 maxQsbrThreads <<< 32

/-- `one_thread_in_count`. -/
def oneThreadInCount : BitVec 64 := 1 <<< 32

/-- `one_thread_and_one_in_previous`. -/
def oneThreadAndOneInPrevious : BitVec 64 := oneThreadInCount ||| 1

/-- `do_get_epoch`. -/
def doGetEpoch (word : BitVec 64) : Epoch := Fin.ofNat 4 (word >>> 62).toNat

/-- `do_get_thread_count`, before its assertion. -/
def doGetThreadCount (word : BitVec 64) : Nat := ((word &&& threadCountInWordMask) >>> 32).toNat

/-- `do_get_threads_in_previous_epoch`, before its assertion. -/
def doGetThreadsInPreviousEpoch (word : BitVec 64) : Nat :=
  (word &&& threadsInPreviousEpochInWordMask).toNat

/-- `assert_invariants`. -/
def assertInvariants (word : BitVec 64) : Except Fault Unit := do
  assertThat (doGetThreadCount word ≤ maxQsbrThreads)
  assertThat (doGetThreadsInPreviousEpoch word ≤ maxQsbrThreads)
  assertThat (doGetThreadsInPreviousEpoch word ≤ doGetThreadCount word)

/-- `get_epoch`. -/
def getEpoch (word : BitVec 64) : Except Fault Epoch := do
  assertInvariants word
  return doGetEpoch word

/-- `get_thread_count`. -/
def getThreadCount (word : BitVec 64) : Except Fault Nat := do
  assertInvariants word
  return doGetThreadCount word

/-- `get_threads_in_previous_epoch`. -/
def getThreadsInPreviousEpoch (word : BitVec 64) : Except Fault Nat := do
  assertInvariants word
  return doGetThreadsInPreviousEpoch word

/-- `single_thread_mode`. -/
def singleThreadMode (word : BitVec 64) : Except Fault Bool := do
  return (← getThreadCount word) < 2

/-- `make_from_epoch`. -/
def makeFromEpoch (epoch : Epoch) : Except Fault (BitVec 64) := do
  let result := BitVec.ofNat 64 epoch.val <<< 62
  assertInvariants result
  return result

/-- `inc_thread_count`. -/
def incThreadCount (word : BitVec 64) : Except Fault (BitVec 64) := do
  assertInvariants word
  let result := word + oneThreadInCount
  assertInvariants result
  assertThat ((← getEpoch word) = (← getEpoch result))
  assertThat ((← getThreadsInPreviousEpoch word) = (← getThreadsInPreviousEpoch result))
  assertThat ((← getThreadCount word) + 1 = (← getThreadCount result))
  return result

/-- `dec_thread_count`. -/
def decThreadCount (word : BitVec 64) : Except Fault (BitVec 64) := do
  assertInvariants word
  assertThat (0 < (← getThreadCount word))
  let result := word - oneThreadInCount
  assertInvariants result
  assertThat ((← getEpoch word) = (← getEpoch result))
  assertThat ((← getThreadsInPreviousEpoch word) = (← getThreadsInPreviousEpoch result))
  assertThat ((← getThreadCount word) - 1 = (← getThreadCount result))
  return result

/-- `inc_thread_count_and_threads_in_previous_epoch`. -/
def incThreadCountAndThreadsInPreviousEpoch (word : BitVec 64) : Except Fault (BitVec 64) := do
  assertInvariants word
  let result := word + oneThreadAndOneInPrevious
  assertInvariants result
  assertThat ((← getEpoch word) = (← getEpoch result))
  assertThat ((← getThreadsInPreviousEpoch word) + 1 = (← getThreadsInPreviousEpoch result))
  assertThat ((← getThreadCount word) + 1 = (← getThreadCount result))
  return result

/-- `dec_thread_count_and_threads_in_previous_epoch`. -/
def decThreadCountAndThreadsInPreviousEpoch (word : BitVec 64) : Except Fault (BitVec 64) := do
  assertInvariants word
  assertThat (0 < (← getThreadCount word))
  assertThat (0 < (← getThreadsInPreviousEpoch word))
  let result := word - oneThreadAndOneInPrevious
  assertInvariants result
  assertThat ((← getEpoch word) = (← getEpoch result))
  assertThat ((← getThreadsInPreviousEpoch word) - 1 = (← getThreadsInPreviousEpoch result))
  assertThat ((← getThreadCount word) - 1 = (← getThreadCount result))
  return result

/-- `inc_epoch_reset_previous`. -/
def incEpochResetPrevious (word : BitVec 64) : Except Fault (BitVec 64) := do
  assertInvariants word
  assertThat ((← getThreadsInPreviousEpoch word) = 0)
  let oldEpoch ← getEpoch word
  -- The new epoch alone; the counts are put beside it.
  let newEpochInWord ← makeFromEpoch (oldEpoch.advance 1)
  let newThreadCountInWord := word &&& threadCountInWordMask
  -- All threads are in the previous epoch now: the count is copied to the low field.
  let newThreadsInPrevious := (word >>> 32) &&& threadsInPreviousEpochInWordMask
  let result := newEpochInWord ||| newThreadCountInWord ||| newThreadsInPrevious
  assertThat ((← getEpoch result) = oldEpoch.advance 1)
  assertThat ((← getThreadCount result) = (← getThreadCount word))
  assertThat ((← getThreadsInPreviousEpoch result) = (← getThreadCount result))
  assertInvariants result
  return result

/-- `inc_epoch_dec_thread_count_reset_previous`. -/
def incEpochDecThreadCountResetPrevious (word : BitVec 64) : Except Fault (BitVec 64) := do
  assertInvariants word
  let oldThreadCount ← getThreadCount word
  assertThat (0 < oldThreadCount)
  assertThat ((← getThreadsInPreviousEpoch word) = 1)
  let newWordWithEpoch ← makeFromEpoch ((← getEpoch word).advance 1)
  -- The thread that leaves is not counted in the new epoch.
  let newThreadCount := oldThreadCount - 1
  let newWordWithThreadCount := BitVec.ofNat 64 newThreadCount <<< 32
  let newThreadsInPrevious := BitVec.ofNat 64 newThreadCount
  let result := newWordWithEpoch ||| newWordWithThreadCount ||| newThreadsInPrevious
  assertThat ((← getEpoch word).advance 1 = (← getEpoch result))
  assertThat ((← getThreadCount word) - 1 = (← getThreadCount result))
  assertThat ((← getThreadsInPreviousEpoch result) = (← getThreadCount result))
  assertInvariants result
  return result

/-- `dec_thread_count_threads_in_previous_epoch_maybe_advance`. -/
def decThreadCountThreadsInPreviousEpochMaybeAdvance (word : BitVec 64) (advanceEpoch : Bool) :
    Except Fault (BitVec 64) :=
  if advanceEpoch then incEpochDecThreadCountResetPrevious word
  else decThreadCountAndThreadsInPreviousEpoch word

/-! ## 1. The fields of a word -/

/-- The word with the given fields. -/
def pack (e : Epoch) (n p : Nat) : BitVec 64 := BitVec.ofNat 64 (e.val * 2 ^ 62 + n * 2 ^ 32 + p)

variable {e : Epoch} {n p : Nat}

theorem pack_toNat (e : Epoch) (hn : n < 2 ^ 30) (hp : p ≤ n) :
    (pack e n p).toNat = e.val * 2 ^ 62 + n * 2 ^ 32 + p := by
  have := e.isLt
  rw [pack, BitVec.toNat_ofNat]
  omega

theorem doGetEpoch_pack (e : Epoch) (hn : n < 2 ^ 30) (hp : p ≤ n) :
    doGetEpoch (pack e n p) = e := by
  rw [doGetEpoch, BitVec.toNat_ushiftRight, pack_toNat e hn hp, Nat.shiftRight_eq_div_pow]
  apply Fin.ext
  rw [Fin.val_ofNat]
  have := e.isLt
  omega

theorem doGetThreadsInPreviousEpoch_pack (e : Epoch) (hn : n < 2 ^ 30) (hp : p ≤ n) :
    doGetThreadsInPreviousEpoch (pack e n p) = p := by
  have hmask : threadsInPreviousEpochInWordMask.toNat = 2 ^ 30 - 1 := by decide
  rw [doGetThreadsInPreviousEpoch, BitVec.toNat_and, pack_toNat e hn hp, hmask,
    Nat.and_two_pow_sub_one_eq_mod]
  omega

theorem doGetThreadCount_pack (e : Epoch) (hn : n < 2 ^ 30) (hp : p ≤ n) :
    doGetThreadCount (pack e n p) = n := by
  have hmask : threadCountInWordMask.toNat >>> 32 = 2 ^ 30 - 1 := by decide
  rw [doGetThreadCount, BitVec.toNat_ushiftRight, BitVec.toNat_and, Nat.shiftRight_and_distrib,
    hmask, pack_toNat e hn hp, Nat.and_two_pow_sub_one_eq_mod, Nat.shiftRight_eq_div_pow]
  have := e.isLt
  omega

theorem assertInvariants_pack (e : Epoch) (hn : n < 2 ^ 30) (hp : p ≤ n) :
    assertInvariants (pack e n p) = .ok () := by
  have hmax : n ≤ maxQsbrThreads := by
    unfold maxQsbrThreads
    omega
  rw [assertInvariants, doGetThreadCount_pack e hn hp, doGetThreadsInPreviousEpoch_pack e hn hp,
    assertThat_pos hmax, assertThat_pos (hp.trans hmax), assertThat_pos hp]
  rfl

theorem getEpoch_pack (e : Epoch) (hn : n < 2 ^ 30) (hp : p ≤ n) :
    getEpoch (pack e n p) = .ok e := by
  rw [getEpoch, assertInvariants_pack e hn hp, doGetEpoch_pack e hn hp]
  rfl

theorem getThreadCount_pack (e : Epoch) (hn : n < 2 ^ 30) (hp : p ≤ n) :
    getThreadCount (pack e n p) = .ok n := by
  rw [getThreadCount, assertInvariants_pack e hn hp, doGetThreadCount_pack e hn hp]
  rfl

theorem getThreadsInPreviousEpoch_pack (e : Epoch) (hn : n < 2 ^ 30) (hp : p ≤ n) :
    getThreadsInPreviousEpoch (pack e n p) = .ok p := by
  rw [getThreadsInPreviousEpoch, assertInvariants_pack e hn hp,
    doGetThreadsInPreviousEpoch_pack e hn hp]
  rfl

theorem singleThreadMode_pack (e : Epoch) (hn : n < 2 ^ 30) (hp : p ≤ n) :
    singleThreadMode (pack e n p) = .ok (decide (n < 2)) := by
  rw [singleThreadMode, getThreadCount_pack e hn hp]
  rfl

/-- The fields of a word are determined by it. -/
theorem pack_inj {e' : Epoch} {n' p' : Nat} (hn : n < 2 ^ 30) (hp : p ≤ n) (hn' : n' < 2 ^ 30)
    (hp' : p' ≤ n') (h : pack e n p = pack e' n' p') : e = e' ∧ n = n' ∧ p = p' := by
  refine ⟨?_, ?_, ?_⟩
  · rw [← doGetEpoch_pack e hn hp, h, doGetEpoch_pack e' hn' hp']
  · rw [← doGetThreadCount_pack e hn hp, h, doGetThreadCount_pack e' hn' hp']
  · rw [← doGetThreadsInPreviousEpoch_pack e hn hp, h, doGetThreadsInPreviousEpoch_pack e' hn' hp']

/-! ## 2. Operations on the fields -/

theorem ok_bind {α β : Type} (a : α) (f : α → Except Fault β) : (Except.ok a >>= f) = f a := rfl

theorem assertThat_true {inst : Decidable True} : assertThat True = .ok () := if_pos trivial

theorem pack_add_one_thread (e : Epoch) (hn : n + 1 < 2 ^ 30) (hp : p ≤ n) :
    pack e n p + oneThreadInCount = pack e (n + 1) p := by
  apply BitVec.eq_of_toNat_eq
  have hone : oneThreadInCount.toNat = 2 ^ 32 := by decide
  have := e.isLt
  rw [BitVec.toNat_add, pack_toNat e (by omega) hp, pack_toNat e hn (by omega), hone]
  omega

theorem pack_add_one_thread_and_previous (e : Epoch) (hn : n + 1 < 2 ^ 30) (hp : p ≤ n) :
    pack e n p + oneThreadAndOneInPrevious = pack e (n + 1) (p + 1) := by
  apply BitVec.eq_of_toNat_eq
  have hone : oneThreadAndOneInPrevious.toNat = 2 ^ 32 + 1 := by decide
  have := e.isLt
  rw [BitVec.toNat_add, pack_toNat e (by omega) hp, pack_toNat e hn (by omega), hone]
  omega

theorem incThreadCount_pack (e : Epoch) (hn : n + 1 < 2 ^ 30) (hp : p ≤ n) :
    incThreadCount (pack e n p) = .ok (pack e (n + 1) p) := by
  have hn0 : n < 2 ^ 30 := by omega
  have hp1 : p ≤ n + 1 := by omega
  simp only [incThreadCount, pack_add_one_thread e hn hp, assertInvariants_pack e hn0 hp,
    assertInvariants_pack e hn hp1, getEpoch_pack e hn0 hp, getEpoch_pack e hn hp1,
    getThreadCount_pack e hn0 hp, getThreadCount_pack e hn hp1,
    getThreadsInPreviousEpoch_pack e hn0 hp, getThreadsInPreviousEpoch_pack e hn hp1,
    ok_bind, assertThat_true]
  rfl

theorem incThreadCountAndThreadsInPreviousEpoch_pack (e : Epoch) (hn : n + 1 < 2 ^ 30)
    (hp : p ≤ n) :
    incThreadCountAndThreadsInPreviousEpoch (pack e n p) = .ok (pack e (n + 1) (p + 1)) := by
  have hn0 : n < 2 ^ 30 := by omega
  have hp1 : p + 1 ≤ n + 1 := by omega
  simp only [incThreadCountAndThreadsInPreviousEpoch, pack_add_one_thread_and_previous e hn hp,
    assertInvariants_pack e hn0 hp, assertInvariants_pack e hn hp1, getEpoch_pack e hn0 hp,
    getEpoch_pack e hn hp1, getThreadCount_pack e hn0 hp, getThreadCount_pack e hn hp1,
    getThreadsInPreviousEpoch_pack e hn0 hp, getThreadsInPreviousEpoch_pack e hn hp1,
    ok_bind, assertThat_true]
  rfl

theorem decThreadCount_pack (e : Epoch) (hn : n + 1 < 2 ^ 30) (hp : p ≤ n) :
    decThreadCount (pack e (n + 1) p) = .ok (pack e n p) := by
  have hn0 : n < 2 ^ 30 := by omega
  have hp1 : p ≤ n + 1 := by omega
  have hsub : pack e (n + 1) p - oneThreadInCount = pack e n p := by
    rw [← pack_add_one_thread e hn hp, BitVec.add_sub_cancel]
  have hpos : 0 < n + 1 := Nat.succ_pos n
  simp only [decThreadCount, hsub, assertInvariants_pack e hn0 hp, assertInvariants_pack e hn hp1,
    getEpoch_pack e hn0 hp, getEpoch_pack e hn hp1, getThreadCount_pack e hn0 hp,
    getThreadCount_pack e hn hp1, getThreadsInPreviousEpoch_pack e hn0 hp,
    getThreadsInPreviousEpoch_pack e hn hp1, ok_bind, hpos, Nat.add_sub_cancel,
    assertThat_true]
  rfl

theorem decThreadCountAndThreadsInPreviousEpoch_pack (e : Epoch) (hn : n + 1 < 2 ^ 30)
    (hp : p ≤ n) :
    decThreadCountAndThreadsInPreviousEpoch (pack e (n + 1) (p + 1)) = .ok (pack e n p) := by
  have hn0 : n < 2 ^ 30 := by omega
  have hp1 : p + 1 ≤ n + 1 := by omega
  have hsub : pack e (n + 1) (p + 1) - oneThreadAndOneInPrevious = pack e n p := by
    rw [← pack_add_one_thread_and_previous e hn hp, BitVec.add_sub_cancel]
  have hpos : 0 < n + 1 := Nat.succ_pos n
  have hpos' : 0 < p + 1 := Nat.succ_pos p
  simp only [decThreadCountAndThreadsInPreviousEpoch, hsub, assertInvariants_pack e hn0 hp,
    assertInvariants_pack e hn hp1, getEpoch_pack e hn0 hp, getEpoch_pack e hn hp1,
    getThreadCount_pack e hn0 hp, getThreadCount_pack e hn hp1,
    getThreadsInPreviousEpoch_pack e hn0 hp, getThreadsInPreviousEpoch_pack e hn hp1, ok_bind,
    hpos, hpos', Nat.add_sub_cancel, assertThat_true]
  rfl

/-- `fetch_sub(1)` on a word with a thread in the previous epoch. -/
theorem pack_sub_one (e : Epoch) (hn : n < 2 ^ 30) (hp : p + 1 ≤ n) :
    pack e n (p + 1) - 1 = pack e n p := by
  have hadd : pack e n p + 1 = pack e n (p + 1) := by
    apply BitVec.eq_of_toNat_eq
    have := e.isLt
    rw [BitVec.toNat_add, pack_toNat e hn (by omega), pack_toNat e hn hp]
    change (_ + 1) % 2 ^ 64 = _
    omega
  rw [← hadd, BitVec.add_sub_cancel]

/-- Three fields put together with `|`. -/
theorem or_eq_pack (e : Epoch) (hn : n < 2 ^ 30) {w c q : BitVec 64}
    (hw : w = BitVec.ofNat 64 e.val <<< 62) (hc : c.toNat = n * 2 ^ 32) (hq : q.toNat = n) :
    w ||| c ||| q = pack e n n := by
  apply BitVec.eq_of_toNat_eq
  have he := e.isLt
  have hwn : w.toNat = e.val <<< 62 := by
    rw [hw, BitVec.toNat_shiftLeft, BitVec.toNat_ofNat, Nat.shiftLeft_eq, Nat.shiftLeft_eq]
    omega
  have hcn : c.toNat = n <<< 32 := by rw [hc, Nat.shiftLeft_eq]
  rw [BitVec.toNat_or, BitVec.toNat_or, Nat.or_assoc, hwn, hcn, hq, pack_toNat e hn (Nat.le_refl n),
    ← Nat.shiftLeft_add_eq_or_of_lt (show n < 2 ^ 32 by omega),
    ← Nat.shiftLeft_add_eq_or_of_lt (by rw [Nat.shiftLeft_eq]; omega), Nat.shiftLeft_eq,
    Nat.shiftLeft_eq]
  omega

theorem pack_and_mask (e : Epoch) (hn : n < 2 ^ 30) (hp : p ≤ n) :
    (pack e n p &&& threadCountInWordMask).toNat = n * 2 ^ 32 := by
  have hhigh := doGetThreadCount_pack e hn hp
  rw [doGetThreadCount, BitVec.toNat_ushiftRight, Nat.shiftRight_eq_div_pow] at hhigh
  have hlow : (pack e n p &&& threadCountInWordMask).toNat % 2 ^ 32 = 0 := by
    have hmask : threadCountInWordMask.toNat % 2 ^ 32 = 0 := by decide
    rw [BitVec.toNat_and, Nat.and_mod_two_pow, hmask, Nat.and_zero]
  omega

theorem pack_shift_and_mask (e : Epoch) (hn : n < 2 ^ 30) (hp : p ≤ n) :
    ((pack e n p >>> 32) &&& threadsInPreviousEpochInWordMask).toNat = n := by
  have hmask : threadsInPreviousEpochInWordMask.toNat = 2 ^ 30 - 1 := by decide
  have := e.isLt
  rw [BitVec.toNat_and, BitVec.toNat_ushiftRight, pack_toNat e hn hp, hmask,
    Nat.and_two_pow_sub_one_eq_mod, Nat.shiftRight_eq_div_pow]
  omega

theorem makeFromEpoch_eq (e : Epoch) :
    makeFromEpoch e = .ok (BitVec.ofNat 64 e.val <<< 62) := by
  revert e
  decide

theorem incEpochResetPrevious_pack (e : Epoch) (hn : n < 2 ^ 30) :
    incEpochResetPrevious (pack e n 0) = .ok (pack (e.advance 1) n n) := by
  have hor := or_eq_pack (e.advance 1) hn rfl (pack_and_mask e hn (Nat.zero_le n))
    (pack_shift_and_mask e hn (Nat.zero_le n))
  simp only [incEpochResetPrevious, assertInvariants_pack _ hn (Nat.zero_le n),
    assertInvariants_pack _ hn (Nat.le_refl n), getEpoch_pack _ hn (Nat.zero_le n),
    getEpoch_pack _ hn (Nat.le_refl n), getThreadCount_pack _ hn (Nat.zero_le n),
    getThreadCount_pack _ hn (Nat.le_refl n), getThreadsInPreviousEpoch_pack _ hn (Nat.zero_le n),
    getThreadsInPreviousEpoch_pack _ hn (Nat.le_refl n), makeFromEpoch_eq, ok_bind, hor,
    assertThat_true]
  rfl

theorem incEpochDecThreadCountResetPrevious_pack (e : Epoch) (hn : n + 1 < 2 ^ 30) :
    incEpochDecThreadCountResetPrevious (pack e (n + 1) 1) = .ok (pack (e.advance 1) n n) := by
  have hn0 : n < 2 ^ 30 := by omega
  have hp1 : 1 ≤ n + 1 := by omega
  have hcount : (BitVec.ofNat 64 n <<< 32).toNat = n * 2 ^ 32 := by
    rw [BitVec.toNat_shiftLeft, BitVec.toNat_ofNat, Nat.shiftLeft_eq]
    omega
  have hprevious : (BitVec.ofNat 64 n).toNat = n := by
    rw [BitVec.toNat_ofNat]
    omega
  have hor := or_eq_pack (e.advance 1) hn0 rfl hcount hprevious
  have hpos : 0 < n + 1 := Nat.succ_pos n
  simp only [incEpochDecThreadCountResetPrevious, assertInvariants_pack _ hn hp1,
    assertInvariants_pack _ hn0 (Nat.le_refl n), getEpoch_pack _ hn hp1,
    getEpoch_pack _ hn0 (Nat.le_refl n), getThreadCount_pack _ hn hp1,
    getThreadCount_pack _ hn0 (Nat.le_refl n), getThreadsInPreviousEpoch_pack _ hn hp1,
    getThreadsInPreviousEpoch_pack _ hn0 (Nat.le_refl n), makeFromEpoch_eq, ok_bind, hpos,
    Nat.add_sub_cancel, hor, assertThat_true]
  rfl

end QsbrState

end Unodb
