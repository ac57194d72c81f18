import Unodb.Qsbr.Count
import Mathlib.Algebra.BigOperators.Group.Finset.Basic
import Mathlib.Algebra.BigOperators.Group.Finset.Piecewise

/-!
# The state word in every reachable state

The invariant of the whole system: the fields of the state word are the numbers of the threads they
count, and each thread is where `PcOk` says.
-/

open Finset

namespace Unodb

open QsbrState

/-! ## 1. Counting with an update -/

section Counting

variable {ι α : Type} [Fintype ι] [DecidableEq ι]

/-- The number of `i` with `f i` when `f` is updated in one place. -/
theorem card_update (f : ι → Bool) (i : ι) (b : Bool) :
    #{j | Function.update f i b j = true} + (f i).toNat = #{j | f j = true} + b.toNat := by
  have hrest : ∑ j ∈ univ.erase i, (if Function.update f i b j = true then 1 else 0) =
      ∑ j ∈ univ.erase i, (if f j = true then 1 else 0) := by
    apply sum_congr rfl
    intro j hj
    rw [Function.update_of_ne (ne_of_mem_erase hj)]
  rw [card_filter, card_filter, ← add_sum_erase univ _ (mem_univ i), hrest,
    ← add_sum_erase univ (fun j => if f j = true then 1 else 0) (mem_univ i),
    Function.update_self]
  cases b <;> cases f i <;> simp <;> omega

/-- The number of updated values with a property. -/
theorem card_update_apply (P : α → Bool) (f : ι → α) (i : ι) (a : α) :
    #{j | P (Function.update f i a j) = true} + (P (f i)).toNat =
      #{j | P (f j) = true} + (P a).toNat := by
  have h := card_update (fun j => P (f j)) i (P a)
  rwa [show Function.update (fun j => P (f j)) i (P a) = fun j => P (Function.update f i a j) from
    funext fun j => (Function.apply_update (fun _ => P) f i a j).symm] at h

end Counting

/-! ## 2. The other threads -/

section Others

variable {t : QsbrPerThread} {g : Epoch} {p p' : Nat} {w : Bool}

/-- While the epoch waits for a thread, it does not matter how many it waits for. -/
theorem PcOk.of_pos (h : PcOk g p w t) (hp : 0 < p ∨ t.pc.counted = false) : PcOk g p' w t := by
  unfold PcOk at h ⊢
  cases hpc : t.pc with
  | registerSpin e =>
    rw [hpc] at h hp
    have hpos : 0 < p := hp.resolve_right (by simp [Pc.counted])
    cases w with
    | false => exact absurd h.2.2 (Nat.ne_of_gt hpos)
    | true => exact h
  | handleOrphans stage single caller =>
    rw [hpc] at h hp
    have hpos : 0 < p := hp.resolve_right (by simp [Pc.counted])
    cases caller with
    | changeEpoch e s => exact absurd h.2.1 (Nat.ne_of_gt hpos)
    | unregisterThread word => exact h
  | changeLoad e single =>
    rw [hpc] at h hp
    exact absurd h.2.1 (Nat.ne_of_gt (hp.resolve_right (by simp [Pc.counted])))
  | changeCas e single word =>
    rw [hpc] at h hp
    exact absurd h.2.1 (Nat.ne_of_gt (hp.resolve_right (by simp [Pc.counted])))
  | orphanLoad list | orphanCas list =>
    rw [hpc] at h
    cases list <;> exact h
  | _ =>
    rw [hpc] at h
    exact h

theorem PcOk.changing (h : PcOk g p w t) (hc : t.pc.changing = true) : p = 0 := by
  unfold PcOk at h
  cases hpc : t.pc with
  | handleOrphans stage single caller =>
    rw [hpc] at h hc
    cases caller with
    | changeEpoch e s => exact h.2.1
    | unregisterThread word => exact absurd hc (by simp [Pc.changing])
  | changeLoad e single =>
    rw [hpc] at h
    exact h.2.1
  | changeCas e single word =>
    rw [hpc] at h
    exact h.2.1
  | _ => exact absurd (hpc ▸ hc) (by simp [Pc.changing])

theorem Settled.next (h : Settled g false t) : Settled (g.advance 1) true t := by
  obtain ⟨hquiescent, -⟩ := h.passed rfl
  have hseen : t.lastSeenEpoch = g := by
    rcases h.seen with hseen | ⟨-, hadv⟩
    · exact hseen
    · rw [hquiescent] at hadv
      exact absurd hadv (Epoch.advance_ne g)
  refine ⟨by simp, fun _ => .inr (by rw [hquiescent]), .inr ⟨by rw [hseen], by rw [hquiescent]⟩⟩

/-- Another thread advances the epoch when this one is not waited for: it is now, if counted. -/
theorem PcOk.next (h : PcOk g p false t) (hc : t.pc.changing = false) :
    PcOk (g.advance 1) p' t.pc.counted t := by
  unfold PcOk at h ⊢
  cases hpc : t.pc with
  | idle | deallocateLoad | quiescentLoad | unregisterLoad =>
    rw [hpc] at h
    exact h.next
  | registerSpin e =>
    rw [hpc] at h
    exact ⟨h.1, congrArg (Epoch.advance · 1) h.2.1⟩
  | unregisterTry word prepared =>
    rw [hpc] at h
    obtain ⟨hsettled, e, n, p, hword, hp, hn, hn1, hloaded⟩ := h
    refine ⟨hsettled.next, e, n, p, hword, hp, hn, hn1, ?_⟩
    rcases hloaded with hpassed | ⟨-, hw, -⟩
    · exact .inl hpassed
    · exact absurd hw Bool.false_ne_true
  | handleOrphans stage single caller =>
    rw [hpc] at h hc
    cases caller with
    | changeEpoch e s => exact absurd hc (by simp [Pc.changing])
    | unregisterThread word => exact absurd h.1 Bool.false_ne_true
  | changeLoad | changeCas => exact absurd (hpc ▸ hc) (by simp [Pc.changing])
  | removeFetchSub | changeBumpLoad | changeBumpStore =>
    rw [hpc] at h
    exact absurd h.1 Bool.false_ne_true
  | orphanLoad list | orphanCas list =>
    rw [hpc] at h
    cases list <;> exact h
  | _ =>
    rw [hpc] at h
    exact h

theorem Pc.counted_of_changing {pc : Pc} (h : pc.changing = true) : pc.counted = true := by
  cases pc with
  | handleOrphans | changeLoad | changeCas => rfl
  | _ => exact absurd h (by simp [Pc.changing])

end Others

/-! ## 3. The invariant -/

namespace QsbrSystem

variable {ι : Type} [Fintype ι]

/-- The threads whose registering compare-exchange has succeeded and whose unregistering one has
    not. -/
def countedThreads (s : QsbrSystem ι) : Finset ι := {i | (s.threads i).pc.counted = true}

/-- Those of them that the epoch waits for. -/
def threadsInPreviousEpoch (s : QsbrSystem ι) : Finset ι := {i | s.inPreviousEpoch i = true}

/-- The state word has epoch `g` and counts `n` threads, `p` of them in the previous epoch. -/
structure Counts (s : QsbrSystem ι) (g : Epoch) (n p : Nat) : Prop where
  word : s.qsbr.state = pack g n p
  counted : #s.countedThreads = n
  previous : #s.threadsInPreviousEpoch = p
  subset : s.threadsInPreviousEpoch ⊆ s.countedThreads
  thread : ∀ i, PcOk g p (s.inPreviousEpoch i) (s.threads i)
  requests : ∀ i, RequestsOk (s.threads i)
  unique : ∀ i j, (s.threads i).pc.changing = true → (s.threads j).pc.changing = true → i = j
  waits : 0 < n → p = 0 → ∃ i, (s.threads i).pc.changing = true

/-- The epoch, the thread count and the count of threads in the previous epoch. -/
def fields (word : BitVec 64) : Epoch × Nat × Nat :=
  (doGetEpoch word, doGetThreadCount word, doGetThreadsInPreviousEpoch word)

/-- What a step with a mark does to the fields; `waited` tells whether the epoch waits for the
    thread that takes it. -/
def updateFields (waited : Bool) : Mark → Epoch × Nat × Nat → Epoch × Nat × Nat
  | .nothing, f => f
  | .joins inPrevious, (g, n, p) => (g, n + 1, p + inPrevious.toNat)
  | .passes, (g, n, p) => (g, n, p - 1)
  | .leaves, (g, n, p) => (g, n - 1, p - waited.toNat)
  | .advances leaves, (g, n, _) => (g.advance 1, n - leaves.toNat, n - leaves.toNat)

namespace Counts

variable {s : QsbrSystem ι} {g : Epoch} {n p : Nat}

theorem le (h : s.Counts g n p) : p ≤ n := by
  rw [← h.counted, ← h.previous]
  exact card_le_card h.subset

theorem lt (h : s.Counts g n p) (hι : Fintype.card ι < 2 ^ 30) : n < 2 ^ 30 := by
  rw [← h.counted]
  exact (card_le_univ _).trans_lt hι

theorem pos_of_waited (h : s.Counts g n p) {i : ι} (hw : s.inPreviousEpoch i = true) : 0 < p := by
  rw [← h.previous]
  exact card_pos.mpr ⟨i, by simpa [threadsInPreviousEpoch] using hw⟩

/-- There is a counted thread that is not in the previous epoch. -/
theorem lt_of_not_waited (h : s.Counts g n p) {i : ι} (hc : (s.threads i).pc.counted = true)
    (hw : s.inPreviousEpoch i = false) : p < n := by
  rw [← h.counted, ← h.previous]
  apply card_lt_card
  refine ⟨h.subset, fun hsub => ?_⟩
  have hi := hsub (show i ∈ s.countedThreads by simpa [countedThreads] using hc)
  simp [threadsInPreviousEpoch, hw] at hi

/-- There is a thread that is not counted. -/
theorem room (h : s.Counts g n p) (hι : Fintype.card ι < 2 ^ 30) {i : ι}
    (hc : (s.threads i).pc.counted = false) : n + 1 < 2 ^ 30 := by
  have hlt : #s.countedThreads < Fintype.card ι := by
    apply card_lt_univ_of_notMem (x := i)
    simp [countedThreads, hc]
  rw [h.counted] at hlt
  omega

theorem stepOk (h : s.Counts g n p) (hι : Fintype.card ι < 2 ^ 30) (i : ι) (spurious : Bool) :
    StepOk g n p (s.inPreviousEpoch i) (s.threads i) (s.qsbr.go (s.threads i) spurious) :=
  go_ok spurious h.word h.le (h.lt hι) (h.requests i) (h.thread i) (fun hw => h.pos_of_waited hw)
    (fun hc hw => h.lt_of_not_waited hc hw) (fun hc => h.room hι hc)

theorem init : (init : QsbrSystem ι).Counts 0 0 0 where
  word := by
    show (0 : BitVec 64) = pack 0 0 0
    decide
  counted := by simp [countedThreads, QsbrSystem.init, Pc.counted]
  previous := by simp [threadsInPreviousEpoch, QsbrSystem.init]
  subset := by simp [threadsInPreviousEpoch, QsbrSystem.init]
  thread _ := ⟨rfl, rfl, rfl⟩
  requests _ := ⟨by simp [QsbrSystem.init], by simp [QsbrSystem.init], by simp [QsbrSystem.init]⟩
  unique i j hi := absurd hi (by simp [QsbrSystem.init, Pc.changing])
  waits hn := absurd hn (Nat.lt_irrefl 0)

theorem not_changing (h : s.Counts g n p) (hp : 0 < p) (i : ι) :
    (s.threads i).pc.changing = false := by
  by_contra hc
  exact Nat.ne_of_gt hp ((h.thread i).changing (Bool.not_eq_false _ ▸ hc))

/-- With no counted threads, none is counted. -/
theorem not_counted (h : s.Counts g 0 p) (i : ι) : (s.threads i).pc.counted = false := by
  have hempty := card_eq_zero.mp h.counted
  by_contra hc
  have hi : i ∈ s.countedThreads := by simpa [countedThreads] using hc
  rw [hempty] at hi
  exact absurd hi (notMem_empty i)

/-- With no threads in the previous epoch, none is there. -/
theorem not_waited (h : s.Counts g n 0) (i : ι) : s.inPreviousEpoch i = false := by
  by_contra hw
  exact absurd (h.pos_of_waited (Bool.not_eq_false _ ▸ hw)) (Nat.lt_irrefl 0)

/-- With one thread in the previous epoch, the others are not there. -/
theorem not_waited_of_ne (h : s.Counts g n 1) {i j : ι} (hi : s.inPreviousEpoch i = true)
    (hne : j ≠ i) : s.inPreviousEpoch j = false := by
  obtain ⟨k, hk⟩ := card_eq_one.mp h.previous
  have hmem : ∀ {a : ι}, s.inPreviousEpoch a = true → a = k := by
    intro a ha
    rw [← mem_singleton, ← hk]
    simpa [threadsInPreviousEpoch] using ha
  by_contra hw
  exact hne ((hmem (Bool.not_eq_false _ ▸ hw)).trans (hmem hi).symm)

variable [DecidableEq ι]

/-- A step of thread `i` that leaves the other threads as they are. -/
theorem of_update (h : s.Counts g n p) {g' : Epoch} {n' p' : Nat} {i : ι} {q : Qsbr}
    {t : QsbrPerThread} {f : ι → Bool} (hword : q.state = pack g' n' p')
    (hcounted : n + t.pc.counted.toNat = n' + (s.threads i).pc.counted.toNat)
    (hprevious : #{j | f j = true} = p') (hself : f i = true → t.pc.counted = true)
    (hsubset : ∀ j, j ≠ i → f j = true → (s.threads j).pc.counted = true)
    (hi : PcOk g' p' (f i) t) (hothers : ∀ j, j ≠ i → PcOk g' p' (f j) (s.threads j))
    (hreq : RequestsOk t)
    (hunique : p' = 0 → t.pc.changing = true → ∀ j, j ≠ i → (s.threads j).pc.changing = false)
    (hwaits : 0 < n' → p' = 0 → t.pc.changing = true ∨
      ∃ j, j ≠ i ∧ (s.threads j).pc.changing = true) :
    Counts { s with qsbr := q, threads := Function.update s.threads i t, inPreviousEpoch := f }
      g' n' p' := by
  have hthread : ∀ j, PcOk g' p' (f j) (Function.update s.threads i t j) := by
    intro j
    by_cases hj : j = i
    · rw [hj, Function.update_self]
      exact hi
    · rw [Function.update_of_ne hj]
      exact hothers j hj
  refine ⟨hword, ?_, hprevious, ?_, hthread, ?_, ?_, ?_⟩
  · have hcard := card_update_apply (fun t : QsbrPerThread => t.pc.counted) s.threads i t
    have hold := h.counted
    unfold countedThreads at hold ⊢
    simp only at hcard ⊢
    omega
  · intro j hj
    simp only [threadsInPreviousEpoch, countedThreads, mem_filter, mem_univ, true_and] at hj ⊢
    by_cases hji : j = i
    · subst hji
      rw [Function.update_self]
      exact hself hj
    · rw [Function.update_of_ne hji]
      exact hsubset j hji hj
  · intro j
    by_cases hj : j = i
    · simp only [hj, Function.update_self]
      exact hreq
    · simp only [Function.update_of_ne hj]
      exact h.requests j
  · intro j k hj hk
    have hzero : p' = 0 := (hthread j).changing hj
    by_cases hji : j = i <;> by_cases hki : k = i
    · rw [hji, hki]
    · subst hji
      simp only [Function.update_self, Function.update_of_ne hki] at hj hk
      rw [hunique hzero hj k hki] at hk
      exact absurd hk Bool.false_ne_true
    · subst hki
      simp only [Function.update_self, Function.update_of_ne hji] at hj hk
      rw [hunique hzero hk j hji] at hj
      exact absurd hj Bool.false_ne_true
    · simp only [Function.update_of_ne hki, Function.update_of_ne hji] at hj hk
      exact h.unique j k hj hk
  · intro hn hp
    rcases hwaits hn hp with ht | ⟨j, hj, hc⟩
    · exact ⟨i, by simpa only [Function.update_self] using ht⟩
    · exact ⟨j, by simpa only [Function.update_of_ne hj] using hc⟩

omit [DecidableEq ι] in
theorem counted_of_waited (h : s.Counts g n p) (j : ι) (hj : s.inPreviousEpoch j = true) :
    (s.threads j).pc.counted = true := by
  have hmem := h.subset (show j ∈ s.threadsInPreviousEpoch by
    simpa [threadsInPreviousEpoch] using hj)
  simpa [countedThreads] using hmem

theorem card_previous (h : s.Counts g n p) (i : ι) (b : Bool) :
    #{j | Function.update s.inPreviousEpoch i b j = true} + (s.inPreviousEpoch i).toNat =
      p + b.toNat := by
  have hold := h.previous
  unfold threadsInPreviousEpoch at hold
  rw [card_update, hold]

theorem counted_of_update (h : s.Counts g n p) {i : ι} {b : Bool} (j : ι) (hj : j ≠ i)
    (hw : Function.update s.inPreviousEpoch i b j = true) : (s.threads j).pc.counted = true := by
  rw [Function.update_of_ne hj] at hw
  exact h.counted_of_waited j hw

variable {i : ι} {q : Qsbr} {t : QsbrPerThread} {g' : Epoch} {n' p' : Nat}

/-- A step that changes the mark of its own thread only, while the epoch waits for some thread. -/
theorem mark_self (h : s.Counts g n p) {b : Bool} (hword : q.state = pack g n' p')
    (hcounted : n + t.pc.counted.toNat = n' + (s.threads i).pc.counted.toNat)
    (hprevious : p + b.toNat = p' + (s.inPreviousEpoch i).toNat)
    (hself : b = true → t.pc.counted = true) (hi : PcOk g p' b t) (hreq : RequestsOk t)
    (hothers : p' = p ∨ 0 < p ∨ n = 0)
    (hunique : p' = 0 → t.pc.changing = true → ∀ j, j ≠ i → (s.threads j).pc.changing = false)
    (hwaits : 0 < n' → p' = 0 → t.pc.changing = true ∨
      ∃ j, j ≠ i ∧ (s.threads j).pc.changing = true) :
    Counts { s with
      qsbr := q
      threads := Function.update s.threads i t
      inPreviousEpoch := Function.update s.inPreviousEpoch i b } g n' p' := by
  refine h.of_update hword hcounted ?_ ?_ h.counted_of_update ?_ ?_ hreq hunique hwaits
  · have hcard := h.card_previous i b
    omega
  · rwa [Function.update_self]
  · rwa [Function.update_self]
  · intro j hj
    rw [Function.update_of_ne hj]
    rcases hothers with rfl | hpos | rfl
    · exact h.thread j
    · exact (h.thread j).of_pos (.inl hpos)
    · exact (h.thread j).of_pos (.inr (h.not_counted j))

/-- A step that advances the epoch. -/
theorem advance (h : s.Counts g n p) {b : Bool} (hword : q.state = pack (g.advance 1) n' n')
    (hcounted : n + t.pc.counted.toNat = n' + (s.threads i).pc.counted.toNat)
    (hself : b = t.pc.counted) (hi : PcOk (g.advance 1) n' b t) (hreq : RequestsOk t)
    (hothers : ∀ j, j ≠ i → s.inPreviousEpoch j = false ∧ (s.threads j).pc.changing = false)
    (hchanging : t.pc.changing = false) :
    Counts { s with
      qsbr := q
      threads := Function.update s.threads i t
      inPreviousEpoch := Function.update (fun j => (s.threads j).pc.counted) i b }
      (g.advance 1) n' n' := by
  refine h.of_update hword hcounted ?_ ?_ ?_ ?_ ?_ hreq ?_ ?_
  · have hcard := card_update (fun j => (s.threads j).pc.counted) i b
    have hold := h.counted
    unfold countedThreads at hold
    rw [hold, hself] at hcard
    rw [hself]
    omega
  · rw [Function.update_self, hself]
    exact id
  · intro j hj hw
    rwa [Function.update_of_ne hj] at hw
  · rwa [Function.update_self]
  · intro j hj
    obtain ⟨hw, hc⟩ := hothers j hj
    have hok := h.thread j
    rw [hw] at hok
    rw [Function.update_of_ne hj]
    exact hok.next hc
  · exact fun _ hc => absurd (hchanging.symm.trans hc) Bool.false_ne_true
  · exact fun hpos hzero => absurd hzero (Nat.ne_of_gt hpos)

/-- The next state after a step with the given effect. -/
theorem effect (h : s.Counts g n p) {mark : Mark}
    (he : Effect g n p (s.inPreviousEpoch i) (s.threads i) (q, t, mark)) (hreq : RequestsOk t) :
    ∃ g' n' p', updateFields (s.inPreviousEpoch i) mark (g, n, p) = (g', n', p') ∧
      Counts { s with
        qsbr := q
        threads := Function.update s.threads i t
        inPreviousEpoch := s.marked i mark } g' n' p' := by
  have hnot : ∀ {pc : Pc}, pc.counted = false → pc.changing = true → False := by
    intro pc hcounted hchanging
    rw [Pc.counted_of_changing hchanging] at hcounted
    exact absurd hcounted (by decide)
  cases he with
  | quiet hword hcounted hchanging hok =>
    -- Nobody joins, passes or leaves.
    refine ⟨g, n, p, rfl, h.of_update hword (by rw [hcounted]) h.previous ?_
      (fun j _ => h.counted_of_waited j) hok (fun j _ => h.thread j) hreq ?_ ?_⟩
    · rw [hcounted]
      exact h.counted_of_waited i
    · intro _ hc j hj
      by_contra hcj
      exact hj (h.unique j i (Bool.not_eq_false _ ▸ hcj) (hchanging ▸ hc))
    · intro hn hp
      obtain ⟨j, hc⟩ := h.waits hn hp
      by_cases hj : j = i
      · exact .inl (by rw [hchanging, ← hj]; exact hc)
      · exact .inr ⟨j, hj, hc⟩
  | joins hword hcond hcounted hpc _ hok =>
    -- A thread that is not counted is not waited for.
    have hw : s.inPreviousEpoch i = false := by
      by_contra hw
      rw [h.counted_of_waited i (Bool.not_eq_false _ ▸ hw)] at hcounted
      exact absurd hcounted (by decide)
    refine ⟨g, n + 1, p + 1, rfl, h.mark_self hword ?_ ?_ ?_ hok hreq (.inr hcond) ?_ ?_⟩
    · rw [hcounted, hpc]
      rfl
    · rw [hw]
      rfl
    · intro _
      rw [hpc]
      rfl
    · exact fun hzero => absurd hzero (Nat.succ_ne_zero p)
    · exact fun _ hzero => absurd hzero (Nat.succ_ne_zero p)
  | joinsLate hword hzero hn hcounted hpc hok =>
    subst hzero
    refine ⟨g, n + 1, 0, rfl, h.mark_self hword ?_ ?_ ?_ hok hreq (.inl rfl) ?_ ?_⟩
    · rw [hcounted, hpc]
      rfl
    · rw [h.not_waited i]
    · exact fun hb => absurd hb Bool.false_ne_true
    · intro _ hc
      rw [hpc] at hc
      exact absurd hc Bool.false_ne_true
    · intro _ _
      -- Somebody is changing the epoch, and that is not this thread.
      obtain ⟨j, hc⟩ := h.waits hn rfl
      refine .inr ⟨j, ?_, hc⟩
      rintro rfl
      exact hnot hcounted hc
  | passes hword hw hpos hcounted hcounted' hchanging hok =>
    refine ⟨g, n, p - 1, rfl, h.mark_self hword ?_ ?_ ?_ hok hreq (.inr (.inl hpos)) ?_ ?_⟩
    · rw [hcounted, hcounted']
    · rw [hw]
      exact (Nat.sub_add_cancel hpos).symm
    · exact fun hb => absurd hb Bool.false_ne_true
    · exact fun _ _ j _ => h.not_changing hpos j
    · exact fun _ hzero => .inl (hchanging.mpr (by omega))
  | leaves hword hw hn hcounted hchanging hcounted' hok =>
    refine ⟨g, n - 1, p, ?_, h.mark_self hword ?_ ?_ ?_ hok hreq (.inl rfl) ?_ ?_⟩
    · rw [hw]
      rfl
    · rw [hcounted, hcounted']
      exact (Nat.sub_add_cancel hn).symm
    · rw [hw]
    · exact fun hb => absurd hb Bool.false_ne_true
    · exact fun _ hc => absurd hc (hnot hcounted')
    · intro _ hzero
      obtain ⟨j, hc⟩ := h.waits hn hzero
      refine .inr ⟨j, ?_, hc⟩
      rintro rfl
      rw [hchanging] at hc
      exact absurd hc Bool.false_ne_true
  | leavesUnpassed hword hw hpos hcounted hchanging hcounted' hok =>
    have hle := h.le
    refine ⟨g, n - 1, p - 1, ?_, h.mark_self hword ?_ ?_ ?_ hok hreq (.inr (.inl (by omega))) ?_ ?_⟩
    · rw [hw]
      rfl
    · rw [hcounted, hcounted']
      exact (Nat.sub_add_cancel (by omega)).symm
    · rw [hw]
      exact (Nat.sub_add_cancel (by omega)).symm
    · exact fun hb => absurd hb Bool.false_ne_true
    · exact fun hzero => absurd hzero (by omega)
    · exact fun _ hzero => absurd hzero (by omega)
  | advances hword hzero hchanging hcounted hchanging' hok =>
    subst hzero
    have hself := Pc.counted_of_changing hchanging
    -- The thread that changed the epoch is counted: it is waited for like the others.
    have hmarked : s.marked i (.advances false) =
        Function.update (fun j => (s.threads j).pc.counted) i true := by
      rw [← hself]
      exact (Function.update_eq_self i _).symm
    rw [hmarked]
    refine ⟨_, n, n, rfl, h.advance hword ?_ hcounted.symm hok hreq ?_ hchanging'⟩
    · rw [hcounted, hself]
    · intro j hj
      refine ⟨h.not_waited j, ?_⟩
      by_contra hc
      exact hj (h.unique j i (Bool.not_eq_false _ ▸ hc) hchanging)
  | advancesAndLeaves hword hw hone hcounted hcounted' hok =>
    subst hone
    have hle := h.le
    refine ⟨_, n - 1, n - 1, rfl, h.advance hword ?_ hcounted'.symm hok hreq ?_ ?_⟩
    · rw [hcounted, hcounted']
      exact (Nat.sub_add_cancel hle).symm
    · exact fun j hj => ⟨h.not_waited_of_ne hw hj, h.not_changing Nat.one_pos j⟩
    · by_contra hc
      exact hnot hcounted' (Bool.not_eq_false _ ▸ hc)

/-- A call is started. -/
theorem start (h : s.Counts g n p) (hword : q.state = s.qsbr.state)
    (hcounted : t.pc.counted = (s.threads i).pc.counted)
    (hchanging : t.pc.changing = (s.threads i).pc.changing)
    (hok : PcOk g p (s.inPreviousEpoch i) t) (hreq : RequestsOk t) (requested : List Nat) :
    ∃ g' n' p', Counts { s with
      qsbr := q
      threads := Function.update s.threads i t
      requested := requested } g' n' p' := by
  obtain ⟨g', n', p', -, h'⟩ := h.effect (.quiet (hword.trans h.word) hcounted hchanging hok) hreq
  exact ⟨g', n', p', h'.word, h'.counted, h'.previous, h'.subset, h'.thread, h'.requests, h'.unique,
    h'.waits⟩

/-- Every step leads to a state in which the word counts the threads. -/
theorem step (h : s.Counts g n p) (hι : Fintype.card ι < 2 ^ 30) {e : ι × Action}
    {s' : QsbrSystem ι} (hstep : Step s e s') : ∃ g' n' p', s'.Counts g' n' p' := by
  obtain ⟨i, a⟩ := e
  obtain ⟨hallows, hact⟩ := hstep
  have hok := h.thread i
  have hreq := h.requests i
  have hidle : ∀ (pc : Pc) (requested : List Nat), (s.threads i).pc = .idle → pc.counted = true →
      pc.changing = false → (Settled g (s.inPreviousEpoch i) { s.threads i with pc } →
        PcOk g p (s.inPreviousEpoch i) { s.threads i with pc }) →
      ∃ g' n' p', Counts { s.setPc i pc with requested := requested } g' n' p' := by
    intro pc requested hpc hcounted hchanging hsettled
    simp only [PcOk, hpc] at hok
    refine h.start (t := { s.threads i with pc }) rfl ?_ ?_ ?_
      ⟨hreq.previous, hreq.current, hreq.deferred⟩ requested
    · rw [hpc]
      exact hcounted
    · rw [hpc]
      exact hchanging
    · exact hsettled ⟨hok.passed, hok.notPassed, hok.seen⟩
  cases a with
  | register a b =>
    obtain ⟨hpc, -⟩ := hallows
    simp only [PcOk, hpc] at hok
    cases hact
    have hreq' : RequestsOk { s.threads i with
        pc := .registerLoad
        previousIntervalOrphanListNode := some a
        currentIntervalOrphanListNode := some b } := ⟨hreq.previous, hreq.current, hreq.deferred⟩
    refine h.start (i := i) (q := (s.qsbr.setNode a (some {})).setNode b (some {})) rfl ?_ ?_ ?_
      hreq' s.requested
    · rw [hpc]
      rfl
    · rw [hpc]
      rfl
    · exact hok
  | deallocate pointer =>
    cases hact
    exact hidle (.deallocateLoad pointer) (pointer :: s.requested) hallows.1 rfl rfl id
  | quiescent =>
    cases hact
    exact hidle .quiescentLoad s.requested hallows.1 rfl rfl id
  | unregister =>
    cases hact
    exact hidle .unregisterLoad s.requested hallows.1 rfl rfl id
  | go spurious =>
    have hgo := h.stepOk hι i spurious
    simp only [act] at hact
    cases hres : s.qsbr.go (s.threads i) spurious with
    | error fault =>
      rw [hres] at hact
      cases hact
    | ok r =>
      rw [hres] at hgo hact
      cases hact
      obtain ⟨g', n', p', -, h'⟩ := h.effect hgo.1 hgo.2
      exact ⟨g', n', p', h'⟩

theorem run (hι : Fintype.card ι < 2 ^ 30) {es : List (ι × Action)} {s' : QsbrSystem ι}
    (hrun : Run Step QsbrSystem.init es s') : ∃ g n p, s'.Counts g n p := by
  refine hrun.invariant (I := fun s => ∃ g n p, s.Counts g n p) ?_ ⟨0, 0, 0, Counts.init⟩
  rintro s e s' ⟨g, n, p, h⟩ hstep
  exact h.step hι hstep

end Counts

/-! ## 4. The state word -/

/-- `register_thread` is running. -/
def Registering : Pc → Prop
  | .registerLoad | .registerCas _ | .registerSpin _ => True
  | _ => False

/-- The state word and the threads of a reachable state. -/
structure WordInvariant (s : QsbrSystem ι) : Prop where
  threadCount : getThreadCount s.qsbr.state = .ok #s.countedThreads
  threadsInPrevious : getThreadsInPreviousEpoch s.qsbr.state = .ok #s.threadsInPreviousEpoch
  subset : s.threadsInPreviousEpoch ⊆ s.countedThreads
  changing : #s.countedThreads ≠ 0 → #s.threadsInPreviousEpoch = 0 →
    ∃! i, (s.threads i).pc.changing = true
  /-- An update of a field does not carry into another one. -/
  update : ∀ i spurious q t mark, s.qsbr.go (s.threads i) spurious = .ok (q, t, mark) →
    fields q.state = updateFields (s.inPreviousEpoch i) mark (fields s.qsbr.state)
  /-- `register_thread` returns the epoch in which the thread is counted. -/
  returns : ∀ i spurious q t mark, s.qsbr.go (s.threads i) spurious = .ok (q, t, mark) →
    Registering (s.threads i).pc → t.pc = .idle →
    t.lastSeenEpoch = doGetEpoch q.state ∧ t.lastSeenQuiescentStateEpoch = doGetEpoch q.state ∧
      (mark = .joins true ∨ mark = .nothing ∧ s.inPreviousEpoch i = true)
  epochs : ∀ i, (s.threads i).pc.counted = true → ¬ Registering (s.threads i).pc →
    ∀ e ∈ [(s.threads i).lastSeenEpoch, (s.threads i).lastSeenQuiescentStateEpoch],
      e = doGetEpoch s.qsbr.state ∨ e.advance 1 = doGetEpoch s.qsbr.state
  assertions : ∀ i spurious, s.qsbr.go (s.threads i) spurious ≠ .error .assertion


omit [Fintype ι] in
theorem near_of_pcOk {g : Epoch} {p : Nat} {w : Bool} {t : QsbrPerThread} (h : PcOk g p w t)
    (hcounted : t.pc.counted = true) (hreg : ¬ Registering t.pc) :
    ∀ e ∈ [t.lastSeenEpoch, t.lastSeenQuiescentStateEpoch], e = g ∨ e.advance 1 = g := by
  have hsettled : Settled g w t →
      ∀ e ∈ [t.lastSeenEpoch, t.lastSeenQuiescentStateEpoch], e = g ∨ e.advance 1 = g := by
    intro hs e he
    simp only [List.mem_cons, List.not_mem_nil, or_false] at he
    rcases he with rfl | rfl
    · exact hs.seen'
    · cases w with
      | false => exact .inl (hs.passed rfl).1
      | true => exact (hs.notPassed rfl).imp_left And.left
  have hquiescent : ∀ {e'}, InQuiescent e' t → e' = g ∨ e'.advance 1 = g →
      ∀ e ∈ [t.lastSeenEpoch, t.lastSeenQuiescentStateEpoch], e = g ∨ e.advance 1 = g := by
    intro e' hq he' e he
    simp only [List.mem_cons, List.not_mem_nil, or_false] at he
    rcases he with rfl | rfl
    · rwa [hq.epoch]
    · rwa [hq.quiescentEpoch]
  unfold PcOk at h
  cases hpc : t.pc with
  | idle | deallocateLoad | quiescentLoad | unregisterLoad =>
    rw [hpc] at h
    exact hsettled h
  | unregisterTry =>
    rw [hpc] at h
    exact hsettled h.1
  | removeFetchSub =>
    rw [hpc] at h
    exact hquiescent h.2.2 (.inl rfl)
  | handleOrphans stage single caller =>
    rw [hpc] at h
    cases caller with
    | changeEpoch => exact hquiescent h.2.2.2 (.inl rfl)
    | unregisterThread => exact hsettled h.2.1
  | changeLoad =>
    rw [hpc] at h
    exact hquiescent h.2.2.2 (.inl rfl)
  | changeCas =>
    rw [hpc] at h
    exact hquiescent h.2.2.2.1 (.inl rfl)
  | changeBumpLoad | changeBumpStore =>
    rw [hpc] at h
    exact hquiescent h.2.2 (.inr h.2.1)
  | registerLoad | registerCas | registerSpin => exact absurd (hpc ▸ trivial) hreg
  | _ =>
    rw [hpc] at hcounted
    exact absurd hcounted Bool.false_ne_true

namespace Counts

variable {s : QsbrSystem ι} {g : Epoch} {n p : Nat} {i : ι} {q : Qsbr} {t : QsbrPerThread}
  {mark : Mark} {spurious : Bool}

theorem fields_eq (h : s.Counts g n p) (hι : Fintype.card ι < 2 ^ 30) :
    fields s.qsbr.state = (g, n, p) := by
  rw [fields, h.word, doGetEpoch_pack g (h.lt hι) h.le, doGetThreadCount_pack g (h.lt hι) h.le,
    doGetThreadsInPreviousEpoch_pack g (h.lt hι) h.le]

/-- A thread that waits for the epoch change goes on when the epoch counts it. -/
theorem spin_returns (h : s.Counts g n p) (hι : Fintype.card ι < 2 ^ 30) {e : Epoch}
    (hpc : (s.threads i).pc = .registerSpin e)
    (hspin : s.qsbr.registerSpin (s.threads i) e = .ok (q, t, mark)) (hidle : t.pc = .idle) :
    q = s.qsbr ∧ t.lastSeenEpoch = g ∧ t.lastSeenQuiescentStateEpoch = g ∧ mark = .nothing ∧
      s.inPreviousEpoch i = true := by
  have hok := h.thread i
  simp only [PcOk, hpc] at hok
  simp only [Qsbr.registerSpin, h.word, getEpoch_pack g (h.lt hι) h.le, ok_bind] at hspin
  by_cases hne : g ≠ e
  · rw [if_pos hne] at hspin
    cases hspin
    refine ⟨rfl, rfl, rfl, rfl, ?_⟩
    by_contra hw
    rw [Bool.not_eq_true] at hw
    rw [hw] at hok
    exact hne hok.2.1.symm
  · rw [if_neg hne] at hspin
    cases hspin
    rw [hpc] at hidle
    exact absurd hidle (by simp)

/-- `register_thread` returns the epoch in which the thread is counted. -/
theorem returns [DecidableEq ι] (h : s.Counts g n p) (hι : Fintype.card ι < 2 ^ 30)
    (hgo : s.qsbr.go (s.threads i) spurious = .ok (q, t, mark))
    (hreg : Registering (s.threads i).pc) (hidle : t.pc = .idle) :
    t.lastSeenEpoch = doGetEpoch q.state ∧ t.lastSeenQuiescentStateEpoch = doGetEpoch q.state ∧
      (mark = .joins true ∨ mark = .nothing ∧ s.inPreviousEpoch i = true) := by
  have hstep := h.stepOk hι i spurious
  rw [hgo] at hstep
  obtain ⟨heffect, hreq⟩ := hstep
  by_cases hspin : ∃ e, (s.threads i).pc = .registerSpin e
  · obtain ⟨e, hpc⟩ := hspin
    unfold Qsbr.go at hgo
    split at hgo
    · -- A deallocation is made first, and the thread stays where it is.
      rename_i d rest hdeferred
      have hasserted := (h.requests i).deferred d (by rw [hdeferred]; exact List.mem_cons_self)
      rw [assertThat_pos hasserted, ok_bind] at hgo
      cases hgo
      rw [hpc] at hidle
      exact absurd hidle (by simp)
    · rw [hpc] at hgo
      obtain ⟨rfl, hseen, hquiescent, hmark, hw⟩ := h.spin_returns hι hpc hgo hidle
      rw [h.word, doGetEpoch_pack g (h.lt hι) h.le]
      exact ⟨hseen, hquiescent, .inr ⟨hmark, hw⟩⟩
  · have hcounted : (s.threads i).pc.counted = false := by
      cases hpc : (s.threads i).pc with
      | registerLoad | registerCas => rfl
      | registerSpin e => exact absurd ⟨e, hpc⟩ hspin
      | _ =>
        rw [hpc] at hreg
        exact absurd hreg id
    have hnot : (s.threads i).pc.counted = true → False := by
      rw [hcounted]
      exact Bool.false_ne_true
    obtain ⟨g', n', p', hfields, h'⟩ := h.effect heffect hreq
    have hword : fields q.state = (g', n', p') := h'.fields_eq hι
    cases heffect with
    | quiet _ hcounted' _ _ =>
      rw [hidle] at hcounted'
      exact absurd hcounted'.symm hnot
    | joins _ _ _ _ hquiescent hok =>
      cases hfields
      rw [show doGetEpoch q.state = g from congrArg Prod.fst hword]
      simp only [PcOk, hidle] at hok
      refine ⟨?_, hquiescent, .inl rfl⟩
      rcases hok.seen with hseen | ⟨-, hadv⟩
      · exact hseen
      · rw [hquiescent] at hadv
        exact absurd hadv (Epoch.advance_ne g)
    | joinsLate _ _ _ _ hpc' _ =>
      rw [hidle] at hpc'
      exact absurd hpc' (by simp)
    | passes _ _ _ hc => exact absurd hc hnot
    | leaves _ _ _ hc => exact absurd hc hnot
    | leavesUnpassed _ _ _ hc => exact absurd hc hnot
    | advances _ _ hc => exact absurd (Pc.counted_of_changing hc) hnot
    | advancesAndLeaves _ _ _ hc => exact absurd hc hnot

end Counts

variable [DecidableEq ι]

/-- In every reachable state the word counts the threads, every step changes only the fields it is
    meant to, the epochs that a registered thread remembers are the global one or the one before,
    and no assertion fails. -/
theorem word_invariant (hι : Fintype.card ι < 2 ^ 30) {es : List (ι × Action)} {s : QsbrSystem ι}
    (hrun : Run Step init es s) : s.WordInvariant := by
  obtain ⟨g, n, p, h⟩ := Counts.run hι hrun
  have hn := h.lt hι
  have hepoch : doGetEpoch s.qsbr.state = g := congrArg Prod.fst (h.fields_eq hι)
  refine ⟨?_, ?_, h.subset, ?_, ?_, ?_, ?_, ?_⟩
  · rw [h.word, h.counted]
    exact getThreadCount_pack g hn h.le
  · rw [h.word, h.previous]
    exact getThreadsInPreviousEpoch_pack g hn h.le
  · intro hcounted hprevious
    rw [h.counted] at hcounted
    rw [h.previous] at hprevious
    obtain ⟨i, hi⟩ := h.waits (Nat.pos_of_ne_zero hcounted) hprevious
    exact ⟨i, hi, fun j hj => h.unique j i hj hi⟩
  · intro i spurious q t mark hgo
    have hstep := h.stepOk hι i spurious
    rw [hgo] at hstep
    obtain ⟨g', n', p', hfields, h'⟩ := h.effect hstep.1 hstep.2
    rw [h.fields_eq hι, hfields]
    exact h'.fields_eq hι
  · intro i spurious q t mark hgo hreg hidle
    exact h.returns hι hgo hreg hidle
  · intro i hcounted hreg
    rw [hepoch]
    exact near_of_pcOk (h.thread i) hcounted hreg
  · intro i spurious hfault
    have hstep := h.stepOk hι i spurious
    rw [hfault] at hstep
    exact absurd hstep (by simp [StepOk])

/-- Two threads: one registers, and the other one comes while the first changes the epoch. -/
theorem word_invariant_two : ∃ s : QsbrSystem (Fin 2),
    Run Step init [(0, .register 0 1), (0, .go false), (0, .go false), (0, .quiescent),
      (0, .go false), (0, .go false), (1, .register 2 3), (1, .go false), (1, .go false)] s ∧
    s.WordInvariant ∧ (s.threads 0).pc.changing = true ∧ (s.threads 1).pc = .registerSpin 0 := by
  obtain ⟨s, hrun, hchanging, hspin⟩ : ∃ s : QsbrSystem (Fin 2),
      Run Step init [(0, .register 0 1), (0, .go false), (0, .go false), (0, .quiescent),
        (0, .go false), (0, .go false), (1, .register 2 3), (1, .go false), (1, .go false)] s ∧
      (s.threads 0).pc.changing = true ∧ (s.threads 1).pc = .registerSpin 0 :=
    ⟨_, .cons ⟨⟨rfl, rfl, by decide, rfl, rfl⟩, rfl⟩ (.cons ⟨trivial, rfl⟩ (.cons ⟨trivial, rfl⟩
      (.cons ⟨⟨rfl, rfl⟩, rfl⟩ (.cons ⟨trivial, rfl⟩ (.cons ⟨trivial, rfl⟩
      (.cons ⟨⟨rfl, rfl, by decide, rfl, rfl⟩, rfl⟩ (.cons ⟨trivial, rfl⟩ (.cons ⟨trivial, rfl⟩
      (.nil _))))))))), rfl, rfl⟩
  exact ⟨s, hrun, word_invariant (by decide) hrun, hchanging, hspin⟩

end QsbrSystem

end Unodb
