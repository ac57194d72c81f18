import Unodb.Qsbr.Calls

/-!
# No pointer is reclaimed too early

A pointer that is passed to `on_next_epoch_deallocate` waits for the other threads that are
registered and outside of `quiescent`, until each of them has begun to pass through a quiescent state
or to leave.
-/

open Finset

namespace Unodb

open QsbrState

/-! ## 1. What a pointer waits for -/

/-- `unregister_thread` is about to advance the epoch: it has found that the thread is the last one in
    the previous epoch, or has handled the orphans already. -/
def Preparing (t : QsbrPerThread) : Prop := Advancing t ∨ ∃ word, t.pc = .unregisterTry word true

namespace QsbrSystem

variable {ι : Type}

/-- The step counts a thread in: its registering compare-exchange succeeds. -/
def Registers (s : QsbrSystem ι) (e : ι × Action) : Prop :=
  (s.threads e.1).deferred = [] ∧ (s.threads e.1).pc = .registerCas s.qsbr.state ∧ e.2 = .go false

variable [DecidableEq ι]

/-- The threads that the pointers wait for after a step.  When `on_next_epoch_deallocate` loads the
    state word, its pointer begins to wait for the other threads that are `present`; no pointer waits
    any longer for a thread that makes the first access of `quiescent` or `unregister_thread`. -/
def waitsAfter (present : Pc → Bool) (s : QsbrSystem ι) (waits : Nat → ι → Bool) (i : ι) :
    Action → Nat → ι → Bool
  | .go _ =>
    match (s.threads i).deferred, (s.threads i).pc with
    | [], .deallocateLoad pointer =>
      Function.update waits pointer fun j => decide (j ≠ i) && present (s.threads j).pc
    | [], .quiescentLoad | [], .unregisterLoad => fun x => Function.update (waits x) i false
    | _, _ => waits
  | _ => waits

end QsbrSystem

/-- A system, and for each pointer the threads that it waits for. -/
structure Watched (ι : Type) where
  system : QsbrSystem ι
  waits : Nat → ι → Bool

namespace Watched

variable {ι : Type} [DecidableEq ι]

def init : Watched ι := ⟨.init, fun _ _ => false⟩

/-- A step of the system.  A pointer is not passed to `on_next_epoch_deallocate` again before it has
    been deallocated. -/
structure Step (present : Pc → Bool) (w : Watched ι) (e : ι × QsbrSystem.Action) (w' : Watched ι) :
    Prop where
  step : w.system.Step e w'.system
  owned : ∀ pointer, e.2 = .deallocate pointer →
    w.system.requested.count pointer = w.system.qsbr.deallocated.count pointer
  waits : w'.waits = w.system.waitsAfter present w.waits e.1 e.2

/-- No thread registers while another one that unregisters is about to advance the epoch. -/
def Undisturbed (w : Watched ι) (e : ι × QsbrSystem.Action) : Prop :=
  w.system.Registers e → ∀ j, ¬ Preparing (w.system.threads j)

/-- The pointers that the running calls are about to hand to `qsbr::deallocate` wait for nobody. -/
def ReclaimLaw (w : Watched ι) : Prop :=
  ∀ i, ∀ d ∈ (w.system.threads i).deferred, ∀ j, w.waits d.target j = false

end Watched

namespace QsbrSystem

variable {ι : Type}

/-- A pointer waits only for threads that the epoch waits for too. -/
def Near (s : QsbrSystem ι) (waits : Nat → ι → Bool) (x : Nat) : Prop :=
  ∀ j, waits x j = true → s.inPreviousEpoch j = true

/-- A pointer waits for nobody. -/
def Safe (waits : Nat → ι → Bool) (x : Nat) : Prop := ∀ j, waits x j = false

/-- What the places hold. -/
structure Kept (s : QsbrSystem ι) (waits : Nat → ι → Bool) (g : Epoch) : Prop where
  holds : ∀ i, HoldsOk (waits · i = false) (s.Near waits) (Safe waits) g s.qsbr.nodes (s.threads i)
  list : (∀ i, (s.threads i).pc.rotated = false) →
    ListHas (s.Near waits) s.qsbr.nodes (s.qsbr.orphanList .previous)

/-- Where the threads are. -/
structure Grace (s : QsbrSystem ι) (waits : Nat → ι → Bool) (n p : Nat) : Prop where
  reading : ∀ x j, waits x j = true → (s.threads j).pc.reading = true
  alone : ∀ i stage caller, (s.threads i).pc = .handleOrphans stage true caller →
    ∀ j, j ≠ i → (s.threads j).pc.counted = true → ∃ e, (s.threads j).pc = .registerSpin e
  last : ∀ i, Preparing (s.threads i) → s.inPreviousEpoch i = true ∧ p = 1
  stale : ∀ i word, (s.threads i).pc.loaded = some word → Advancing (s.threads i) →
    doGetThreadCount word < 2 → n < 2
  once : ∀ x, s.requested.count x ≤ s.qsbr.deallocated.count x + 1

section Waits

variable [DecidableEq ι] {s : QsbrSystem ι} {waits : Nat → ι → Bool} {i : ι} {a : Action}
  {x : Nat} {j : ι} {present : Pc → Bool}

/-- A step makes a pointer wait for a thread only if that thread is present and another one. -/
theorem waitsAfter_true (h : s.waitsAfter present waits i a x j = true) :
    waits x j = true ∨ (s.threads i).deferred = [] ∧ (s.threads i).pc = .deallocateLoad x ∧ j ≠ i ∧
      present (s.threads j).pc = true := by
  cases a with
  | go spurious =>
    cases hd : (s.threads i).deferred with
    | cons d rest =>
      simp only [waitsAfter, hd] at h
      exact .inl h
    | nil =>
      cases hpc : (s.threads i).pc with
      | deallocateLoad pointer =>
        simp only [waitsAfter, hd, hpc] at h
        by_cases hx : x = pointer
        · subst hx
          rw [Function.update_self, Bool.and_eq_true, decide_eq_true_eq] at h
          exact .inr ⟨rfl, rfl, h.1, h.2⟩
        · rw [Function.update_of_ne hx] at h
          exact .inl h
      | quiescentLoad | unregisterLoad =>
        simp only [waitsAfter, hd, hpc] at h
        by_cases hj : j = i
        · subst hj
          rw [Function.update_self] at h
          exact absurd h Bool.false_ne_true
        · rw [Function.update_of_ne hj] at h
          exact .inl h
      | _ =>
        simp only [waitsAfter, hd, hpc] at h
        exact .inl h
  | _ => exact .inl h

/-- No pointer waits for a thread that has begun to pass through a quiescent state or to leave. -/
theorem waitsAfter_self (hd : (s.threads i).deferred = [])
    (hpc : (s.threads i).pc = .quiescentLoad ∨ (s.threads i).pc = .unregisterLoad) {spurious : Bool} :
    s.waitsAfter present waits i (.go spurious) x i = false := by
  rcases hpc with hpc | hpc <;> simp only [waitsAfter, hd, hpc] <;> exact Function.update_self ..

end Waits

section Places

variable [Fintype ι] [DecidableEq ι] {s : QsbrSystem ι} {waits : Nat → ι → Bool} {P C : List Nat}
  {H : ι → List Nat} {i j : ι} {x : Nat} {g : Epoch} {n p : Nat}

/-- The argument of `on_next_epoch_deallocate` is in no other place. -/
theorem Placed.fresh (h : s.Placed P C H) (hpc : (s.threads i).pc = .deallocateLoad x)
    (honce : s.requested.count x ≤ s.qsbr.deallocated.count x + 1) :
    (∀ j, x ∉ (s.threads j).held) ∧
      ∀ a ∈ (↑P + ↑C + ∑ i, ↑(H i) : Multiset Nat), x ∉ requestsAt s.qsbr.nodes a := by
  have hheld : ∀ j, (s.heldBy j).count x =
      (s.threads j).held.count x + (s.threads j).pc.argument.count x := by
    intro j
    simp only [heldBy, QsbrPerThread.locals, QsbrPerThread.held, Multiset.count_add]
    omega
  have hargument : (s.threads i).pc.argument.count x = 1 := by
    rw [hpc]
    exact Multiset.count_singleton_self x
  have hcount := congrArg (Multiset.count x) h.requests
  rw [Multiset.count_add, Multiset.count_add, Multiset.count_sum', Multiset.coe_count,
    Multiset.coe_count, ← add_sum_erase univ _ (mem_univ i), hheld i, hargument] at hcount
  have hrest : ∑ j ∈ univ.erase i, (s.heldBy j).count x = 0 := by omega
  have hnodes : (requestsIn s.qsbr.nodes (↑P + ↑C + ∑ i, ↑(H i))).count x = 0 := by omega
  constructor
  · intro j
    rw [← Multiset.count_eq_zero]
    by_cases hj : j = i
    · subst hj
      omega
    · have hzero := (sum_eq_zero_iff.mp hrest) j (mem_erase.mpr ⟨hj, mem_univ j⟩)
      rw [hheld] at hzero
      omega
  · intro a ha hx
    exact Multiset.count_eq_zero.mp hnodes (Multiset.mem_bind.mpr ⟨a, ha, hx⟩)

/-- What the places hold, with the pointer of a call that begins to wait. -/
theorem Kept.waiting (h : s.Kept waits g) (hplaced : s.Placed P C H)
    (honce : ∀ x, s.requested.count x ≤ s.qsbr.deallocated.count x + 1) (present : Pc → Bool)
    (a : Action) : s.Kept (s.waitsAfter present waits i a) g := by
  -- The pointers in the places wait for no more threads than before.
  let Old (x : Nat) : Prop := (s.threads i).pc ≠ .deallocateLoad x
  have hold : ∀ x, Old x → ∀ j, s.waitsAfter present waits i a x j = true → waits x j = true :=
    fun x hx j hwaits => (waitsAfter_true hwaits).resolve_right fun hnew => hx hnew.2.1
  have hfalse : ∀ x, Old x → ∀ j, waits x j = false → s.waitsAfter present waits i a x j = false := by
    intro x hx j hj
    by_contra hwaits
    have hwaits' := hold x hx j (Bool.not_eq_false _ ▸ hwaits)
    exact absurd (hj.symm.trans hwaits') Bool.false_ne_true
  have hnear : ∀ x, Old x → s.Near waits x → s.Near (s.waitsAfter present waits i a) x :=
    fun x hx hnear j hj => hnear j (hold x hx j hj)
  have hheld : ∀ j x, x ∈ (s.threads j).held → Old x :=
    fun j x hx hpc => (hplaced.fresh hpc (honce x)).1 j hx
  have hnodes : ∀ a ∈ (↑P + ↑C + ∑ i, ↑(H i) : Multiset Nat), ∀ x ∈ requestsAt s.qsbr.nodes a, Old x :=
    fun a ha x hx hpc => (hplaced.fresh hpc (honce x)).2 a ha hx
  refine ⟨fun j => (h.holds j).monoOn (φ := Old) (hplaced.thread j) (fun k r hr => hheld j _ ?_)
    (fun d hd => hheld j _ ?_) (fun a ha => hnodes a ?_) (fun x hx => hfalse x hx j) hnear
    fun x hx hsafe j => hfalse x hx j (hsafe j), fun hrotated => ?_⟩
  · have hmem : r.pointer ∈ pointersOf ((s.threads j).requests k) :=
      Multiset.mem_coe.mpr (List.mem_map_of_mem hr)
    simp only [QsbrPerThread.held, QsbrPerThread.vectors, Multiset.mem_add]
    cases k with
    | previous => exact .inl (.inl hmem)
    | current => exact .inl (.inr hmem)
  · exact Multiset.mem_add.mpr (.inr (Multiset.mem_coe.mpr (List.mem_map_of_mem hd)))
  · exact Multiset.mem_add.mpr (.inr (Multiset.mem_sum.mpr ⟨j, mem_univ j, ha⟩))
  · refine (h.list hrotated).transfer hplaced.previous fun a ha x hx => hnear x (hnodes a ?_ x hx)
    simp [ha]

/-! ## 2. One step -/

section Go

variable {q : Qsbr} {t : QsbrPerThread} {mark : Mark} {spurious : Bool} {g' : Epoch} {n' p' : Nat}
  (hc : s.Counts g n p) (hι : Fintype.card ι < 2 ^ 30) (hg : s.Grace waits n p)
  (hres : s.qsbr.go (s.threads i) spurious = .ok (q, t, mark))

omit [Fintype ι] in
include hg in
/-- A pointer waits for threads only that read. -/
theorem Grace.reading_of_waits
    (h : s.waitsAfter Pc.reading waits i (.go spurious) x j = true) : (s.threads j).pc.reading = true := by
  rcases waitsAfter_true h with h | ⟨-, -, -, h⟩
  · exact hg.reading x j h
  · exact h

omit [Fintype ι] in
include hg hres in
/-- If a pointer waits for the thread after the step, then the step does not change the marks. -/
theorem Grace.self_of_waits (h : s.waitsAfter Pc.reading waits i (.go spurious) x i = true) :
    mark = .nothing ∧ t.pc.reading = true := by
  obtain ⟨hmark, hreading⟩ := (go_callStep _ hres).reading (hg.reading_of_waits h)
  refine ⟨hmark, hreading.resolve_right fun ⟨hd, hpc⟩ => ?_⟩
  rw [waitsAfter_self hd hpc] at h
  exact Bool.false_ne_true h

include hc hg in
/-- While one thread is counted, a pointer that waits for another one waits for nobody. -/
theorem Grace.safe_of_alone (hone : n < 2) (hcounted : (s.threads i).pc.counted = true)
    (hx : s.waitsAfter Pc.reading waits i (.go spurious) x i = false) :
    Safe (s.waitsAfter Pc.reading waits i (.go spurious)) x := by
  intro j
  by_contra hwaits
  have hwaits' : s.waitsAfter Pc.reading waits i (.go spurious) x j = true := Bool.not_eq_false _ ▸ hwaits
  have hj := Pc.counted_of_reading (hg.reading_of_waits hwaits')
  have hle : #s.countedThreads ≤ 1 := by
    rw [hc.counted]
    omega
  have hji : j = i := card_le_one.mp hle j (by simpa [countedThreads] using hj) i
    (by simpa [countedThreads] using hcounted)
  rw [hji, hx] at hwaits'
  exact Bool.false_ne_true hwaits'

include hc hg in
/-- While a thread handles the orphans, the epoch waits for it alone or for nobody. -/
theorem Grace.safe_of_near (hr : s.Rotating) (hhandling : (s.threads i).pc.handling = true)
    (hnear : s.Near (s.waitsAfter Pc.reading waits i (.go spurious)) x) :
    Safe (s.waitsAfter Pc.reading waits i (.go spurious)) x := by
  intro j
  by_contra hwaits
  have hwaits' : s.waitsAfter Pc.reading waits i (.go spurious) x j = true := Bool.not_eq_false _ ▸ hwaits
  have hreading := hg.reading_of_waits hwaits'
  have hw := hnear j hwaits'
  cases hpc : (s.threads i).pc with
  | handleOrphans stage single caller =>
    cases caller with
    | changeEpoch e s' =>
      have hzero := (hc.thread i).changing (by rw [hpc]; rfl)
      exact Nat.ne_of_gt (hc.pos_of_waited hw) hzero
    | unregisterThread word =>
      obtain ⟨hi, rfl⟩ := hg.last i (.inl (hr.entered i stage single word hpc))
      by_cases hji : j = i
      · rw [hji, hpc] at hreading
        exact Bool.false_ne_true hreading
      · rw [hc.not_waited_of_ne hi hji] at hw
        exact Bool.false_ne_true hw
  | _ =>
    rw [hpc] at hhandling
    exact Bool.false_ne_true hhandling

omit [Fintype ι] in
include hg in
/-- While the orphans are handled in single thread mode, no pointer waits. -/
theorem Grace.safe_of_single {stage : HandleOrphans} {caller : Caller}
    (hpc : (s.threads i).pc = .handleOrphans stage true caller) :
    Safe (s.waitsAfter Pc.reading waits i (.go spurious)) x := by
  intro j
  by_contra hwaits
  have hreading := hg.reading_of_waits (Bool.not_eq_false _ ▸ hwaits)
  by_cases hji : j = i
  · rw [hji, hpc] at hreading
    exact Bool.false_ne_true hreading
  · obtain ⟨e, hspin⟩ := hg.alone i stage caller hpc j hji (Pc.counted_of_reading hreading)
    rw [hspin] at hreading
    exact Bool.false_ne_true hreading

include hc hg in
/-- The orphans are handled once for an epoch change. -/
theorem Grace.not_rotated (hr : s.Rotating) (hhandling : (s.threads i).pc.handling = true) (j : ι) :
    (s.threads j).pc.rotated = false := by
  by_contra hrotated
  rw [Bool.not_eq_false] at hrotated
  -- The other thread changes the epoch in `quiescent` or in `unregister_thread`.
  have hj : (s.threads j).pc.changing = true ∨ Preparing (s.threads j) := by
    cases hpc : (s.threads j).pc with
    | changeLoad | changeCas => exact .inl rfl
    | unregisterTry word prepared =>
      rw [hpc] at hrotated
      cases prepared with
      | true => exact .inr (.inr ⟨word, hpc⟩)
      | false => exact absurd hrotated Bool.false_ne_true
    | _ =>
      rw [hpc] at hrotated
      exact absurd hrotated Bool.false_ne_true
  have hi : (s.threads i).pc.changing = true ∨ Preparing (s.threads i) := by
    cases hpc : (s.threads i).pc with
    | handleOrphans stage single caller =>
      cases caller with
      | changeEpoch => exact .inl rfl
      | unregisterThread word => exact .inr (.inl (hr.entered i stage single word hpc))
    | _ =>
      rw [hpc] at hhandling
      exact absurd hhandling Bool.false_ne_true
  have hji : j = i := by
    rcases hi with hi | hi <;> rcases hj with hj | hj
    · exact hc.unique j i hj hi
    · have hzero := (hc.thread i).changing hi
      exact absurd ((hg.last j hj).2.symm.trans hzero) Nat.one_ne_zero
    · have hzero := (hc.thread j).changing hj
      exact absurd ((hg.last i hi).2.symm.trans hzero) Nat.one_ne_zero
    · obtain ⟨hwi, rfl⟩ := hg.last i hi
      by_contra hne
      have hwj := (hg.last j hj).1
      rw [hc.not_waited_of_ne hwi hne] at hwj
      exact Bool.false_ne_true hwj
  subst hji
  cases hpc : (s.threads j).pc with
  | handleOrphans =>
    rw [hpc] at hrotated
    exact Bool.false_ne_true hrotated
  | _ =>
    rw [hpc] at hhandling
    exact Bool.false_ne_true hhandling

include hc hι hg hres in
/-- What the thread holds after its step. -/
theorem Kept.keeps (h : s.Kept waits g) (hr : s.Rotating) (hplaced : s.Placed P C H) :
    HoldsKept (s.waitsAfter Pc.reading waits i (.go spurious) · i = false)
      (s.Near (s.waitsAfter Pc.reading waits i (.go spurious)))
      (Safe (s.waitsAfter Pc.reading waits i (.go spurious))) g s.qsbr (q, t, mark) := by
  have hkept := h.waiting (i := i) hplaced hg.once Pc.reading (.go spurious)
  refine go_keeps (hkept.holds i) hc.word hc.le (hc.lt hι) (hc.thread i) (hplaced.toLocal i)
    (fun hcounted hone x hx => hg.safe_of_alone hc hone hcounted hx) (fun hd pointer hpc => ?_)
    (fun hhandling => ⟨fun x hx => hg.safe_of_near hc hr hhandling hx, hkept.list (hg.not_rotated hc hr
      hhandling)⟩) (fun stage caller hpc x => hg.safe_of_single hpc) _ hres
  have hself : s.waitsAfter Pc.reading waits i (.go spurious) pointer i = false := by
    simp [waitsAfter, hd, hpc]
  exact ⟨hself, fun hone => hg.safe_of_alone hc hone (by rw [hpc]; rfl) hself⟩

omit [Fintype ι] in
include hg hres in
/-- A step that does not advance the epoch leaves the pointers near. -/
theorem Grace.near_marked (hmark : mark.advancing = false)
    (hnear : s.Near (s.waitsAfter Pc.reading waits i (.go spurious)) x) :
    Near ⟨q, Function.update s.threads i t, s.marked i mark, s.requested⟩
      (s.waitsAfter Pc.reading waits i (.go spurious)) x := by
  intro j hj
  have hw := hnear j hj
  have hne : mark ≠ .nothing → j ≠ i := by
    rintro hmark rfl
    exact hmark (hg.self_of_waits hres hj).1
  cases mark with
  | nothing => exact hw
  | joins b => exact (Function.update_of_ne (hne (by simp)) _ _).trans hw
  | passes | leaves => exact (Function.update_of_ne (hne (by simp)) _ _).trans hw
  | advances => exact absurd hmark Bool.noConfusion

omit [Fintype ι] in
include hg hres in
/-- When the epoch has advanced, it waits for every thread that a pointer waits for. -/
theorem Grace.near_advanced {leaves : Bool} (hmark : mark = .advances leaves) :
    Near ⟨q, Function.update s.threads i t, s.marked i mark, s.requested⟩
      (s.waitsAfter Pc.reading waits i (.go spurious)) x := by
  intro j hj
  have hcounted := Pc.counted_of_reading (hg.reading_of_waits hj)
  have hji : j ≠ i := by
    rintro rfl
    have hnothing := (hg.self_of_waits hres hj).1
    exact absurd (hmark.symm.trans hnothing) (by simp)
  subst hmark
  cases leaves with
  | false => exact hcounted
  | true => exact (Function.update_of_ne hji _ fun j => (s.threads j).pc.counted).trans hcounted

include hc hg hres in
/-- When the epoch advances, every thread that it waited for has passed through a quiescent state or
    leaves. -/
theorem Grace.safe_advanced {leaves : Bool} (hmark : mark = .advances leaves)
    (he : Effect g n p (s.inPreviousEpoch i) (s.threads i) (q, t, mark))
    (hnear : s.Near (s.waitsAfter Pc.reading waits i (.go spurious)) x) :
    Safe (s.waitsAfter Pc.reading waits i (.go spurious)) x := by
  intro j
  by_contra hwaits
  have hwaits' : s.waitsAfter Pc.reading waits i (.go spurious) x j = true := Bool.not_eq_false _ ▸ hwaits
  have hw := hnear j hwaits'
  subst hmark
  cases he with
  | advances _ hzero => exact Nat.ne_of_gt (hc.pos_of_waited hw) hzero
  | advancesAndLeaves _ hi hone =>
    subst hone
    by_cases hji : j = i
    · subst hji
      exact absurd (hg.self_of_waits hres hwaits').1 (by simp)
    · rw [hc.not_waited_of_ne hi hji] at hw
      exact Bool.false_ne_true hw

omit [DecidableEq ι] in
include hc hι hg hres in
/-- The orphans that have been handled stay until the epoch advances. -/
theorem Grace.rotated_go (hrotated : (s.threads i).pc.rotated = true) (hmark : mark.advancing = false) :
    t.pc.rotated = true := by
  rcases (go_callStep _ hres).rotated hrotated with ht | ht | ht
  · exact ht
  · exact absurd (hmark.symm.trans ht) Bool.false_ne_true
  · -- A thread that is the last one in the previous epoch advances the epoch when it leaves.
    have hstep := hc.stepOk hι i spurious
    rw [hres] at hstep
    have he : Effect g n p (s.inPreviousEpoch i) (s.threads i) (q, t, .leaves) := ht ▸ hstep.1
    have hchanging : (s.threads i).pc.changing = false := by cases he <;> assumption
    have hpreparing : Preparing (s.threads i) := by
      cases hpc : (s.threads i).pc with
      | unregisterTry word prepared =>
        rw [hpc] at hrotated
        cases prepared with
        | true => exact .inr ⟨word, hpc⟩
        | false => exact absurd hrotated Bool.false_ne_true
      | _ =>
        rw [hpc] at hrotated hchanging
        first
          | exact absurd hrotated Bool.false_ne_true
          | exact absurd hchanging Bool.noConfusion
    obtain ⟨hw, rfl⟩ := hg.last i hpreparing
    cases he with
    | leaves _ hw' => exact absurd (hw'.symm.trans hw) Bool.false_ne_true
    | leavesUnpassed _ _ hp => exact absurd hp (Nat.lt_irrefl 1)

include hc hι hg hres in
/-- What the places hold after a step. -/
theorem Kept.go (h : s.Kept waits g) (hr : s.Rotating) (hplaced : s.Placed P C H)
    (hfields : updateFields (s.inPreviousEpoch i) mark (g, n, p) = (g', n', p'))
    {P' C' : List Nat} {H' : ι → List Nat} (hplaced' : Placed
      ⟨q, Function.update s.threads i t, s.marked i mark, s.requested⟩ P' C' H') :
    Kept ⟨q, Function.update s.threads i t, s.marked i mark, s.requested⟩
      (s.waitsAfter Pc.reading waits i (.go spurious)) g' := by
  have hkept := h.waiting (i := i) hplaced hg.once Pc.reading (.go spurious)
  have hkeeps := h.keeps hc hι hg hres hr hplaced
  obtain ⟨_, _, _, hmoves⟩ := go_moves (hplaced.toLocal i) _ hres
  -- The nodes of the other threads are as before.
  have hframe : ∀ j, j ≠ i → ∀ a ∈ H j, q.nodes a = s.qsbr.nodes a :=
    fun j hj a ha => hmoves.frame a (hplaced.disjoint i (Placed.mem_others hj ha))
  have hstep := hc.stepOk hι i spurious
  rw [hres] at hstep
  cases hkeeps with
  | stays hmark hholds hlist =>
    have hg' : g' = g := by
      cases mark <;> first
        | exact (congrArg Prod.fst hfields).symm
        | exact absurd hmark Bool.noConfusion
    subst hg'
    refine ⟨fun j => ?_, fun hrotated => ?_⟩
    · by_cases hj : j = i
      · subst hj
        simp only [Function.update_self]
        exact hholds.mono (fun _ => id) (fun _ => hg.near_marked hres hmark) fun _ => id
      · simp only [Function.update_of_ne hj]
        exact ((hkept.holds j).congr (hplaced.thread j) (hframe j hj)).mono (fun _ => id)
          (fun _ => hg.near_marked hres hmark) fun _ => id
    · have ht : t.pc.rotated = false := by simpa only [Function.update_self] using hrotated i
      refine (hlist ht (hkept.list fun j => ?_)).mono fun _ => hg.near_marked hres hmark
      by_cases hj : j = i
      · subst hj
        by_contra hrotated
        have htrue := hg.rotated_go hc hι hres (Bool.not_eq_false _ ▸ hrotated) hmark
        exact absurd (ht.symm.trans htrue) Bool.false_ne_true
      · simpa only [Function.update_of_ne hj] using hrotated j
  | @advances _ _ leaves hholds =>
    have hnear := fun x => hg.near_advanced (x := x) hres rfl
    have hsafe := fun x => hg.safe_advanced (x := x) hc hres rfl hstep.1
    have hg' : g' = g.advance 1 := (congrArg Prod.fst hfields).symm
    subst hg'
    refine ⟨fun j => ?_, fun _ => .of_forall hplaced'.previous hnear⟩
    by_cases hj : j = i
    · subst hj
      simp only [Function.update_self]
      exact hholds _ _ hnear (fun _ => id) hsafe
    · simp only [Function.update_of_ne hj]
      exact ((hkept.holds j).congr (hplaced.thread j) (hframe j hj)).advance hnear (fun _ => id) hsafe

variable (hquiet : ∀ b, mark = .joins b → ∀ j, ¬ Preparing (s.threads j))

omit [DecidableEq ι] in
include hc hι hg hres hquiet in
/-- The others still wait while a thread handles the orphans in single thread mode. -/
theorem Grace.alone_go {k : ι} {stage : HandleOrphans} {caller : Caller} (hr : s.Rotating)
    (hpc : (s.threads k).pc = .handleOrphans stage true caller) (hki : k ≠ i)
    (hcounted' : t.pc.counted = true) : ∃ e, t.pc = .registerSpin e := by
  have hstep := hc.stepOk hι i spurious
  rw [hres] at hstep
  have hcall := go_callStep _ hres
  -- The epoch does not wait for the other thread, and it does not register now.
  obtain ⟨hw, hjoins⟩ : s.inPreviousEpoch i = false ∧ ∀ b, mark = .joins b → 0 < p ∨ n = 0 → False := by
    cases caller with
    | changeEpoch e single =>
      have hzero : p = 0 := (hc.thread k).changing (by rw [hpc]; rfl)
      subst hzero
      refine ⟨hc.not_waited i, fun b _ hor => ?_⟩
      rcases hor with hp | rfl
      · exact Nat.lt_irrefl 0 hp
      · have hk := hc.not_counted k
        rw [hpc] at hk
        exact Bool.noConfusion hk
    | unregisterThread word =>
      have hpreparing : Preparing (s.threads k) := .inl (hr.entered k stage true word hpc)
      obtain ⟨hwk, rfl⟩ := hg.last k hpreparing
      exact ⟨hc.not_waited_of_ne hwk (Ne.symm hki), fun b hb _ => hquiet b hb k hpreparing⟩
  by_cases hcounted : (s.threads i).pc.counted = true
  · obtain ⟨e, hspin⟩ := hg.alone k stage caller hpc i (Ne.symm hki) hcounted
    have hok := hc.thread i
    simp only [PcOk, hspin, hw] at hok
    refine ⟨e, hcall.spin e hspin ?_⟩
    rw [hc.word, doGetEpoch_pack g (hc.lt hι) hc.le]
    exact hok.2.1.symm
  · cases hstep.1 with
    | quiet _ hsame => exact absurd (hsame.symm.trans hcounted') hcounted
    | joins _ hor => exact (hjoins _ rfl hor).elim
    | joinsLate _ _ _ _ hpc' => exact ⟨_, hpc'⟩
    | passes _ _ _ hc' | leaves _ _ _ hc' | leavesUnpassed _ _ _ hc' => exact absurd hc' hcounted
    | advances _ _ hc' => exact absurd (Pc.counted_of_changing hc') hcounted
    | advancesAndLeaves _ _ _ hc' => exact absurd hc' hcounted

include hc hι hg hres hquiet in
/-- A thread that prepares an epoch change stays the last one in the previous epoch when another
    thread takes a step. -/
theorem Grace.last_go {k : ι} (hpreparing : Preparing (s.threads k)) (hki : k ≠ i)
    (hfields : updateFields (s.inPreviousEpoch i) mark (g, n, p) = (g', n', p')) :
    s.marked i mark k = true ∧ p' = 1 ∧ n' ≤ n := by
  have hstep := hc.stepOk hι i spurious
  rw [hres] at hstep
  obtain ⟨hwk, rfl⟩ := hg.last k hpreparing
  have hwi : s.inPreviousEpoch i = false := hc.not_waited_of_ne hwk (Ne.symm hki)
  have hnot : ¬ s.inPreviousEpoch i = true := by simp [hwi]
  rw [hwi] at hfields
  cases hstep.1 with
  | quiet =>
    cases hfields
    exact ⟨hwk, rfl, le_rfl⟩
  | joins => exact absurd hpreparing (hquiet true rfl k)
  | joinsLate => exact absurd hpreparing (hquiet false rfl k)
  | leaves =>
    cases hfields
    exact ⟨(Function.update_of_ne hki _ _).trans hwk, rfl, Nat.sub_le n 1⟩
  | passes _ hw | leavesUnpassed _ hw | advancesAndLeaves _ hw => exact absurd hw hnot
  | advances _ hzero => exact absurd hzero Nat.one_ne_zero

omit hquiet

omit [DecidableEq ι] in
include hc hι hg hres in
/-- A word by which `unregister_thread` advances the epoch counts one thread in the previous epoch. -/
theorem Grace.loaded_go {word : BitVec 64} (hloaded : t.pc.loaded = some word) (hadvancing : Advancing t) :
    mark = .nothing ∧ p = 1 ∧ (doGetThreadCount word < 2 → n < 2) := by
  have hmark : mark = .nothing :=
    ((go_callStep _ hres).unmarked (.inr (.inl (by simp [hloaded])))).resolve_right fun h => by
      simp [hloaded] at h
  refine ⟨hmark, ?_⟩
  rcases (go_loaded spurious _ hres).loaded with hnone | ⟨hsame, hquiescent, hstates⟩ | ⟨hword, -⟩
  · exact absurd (hloaded.symm.trans hnone) (by simp)
  · have hold : Advancing (s.threads i) := hadvancing.congr hsame.symm hquiescent.symm hstates.symm
    exact ⟨(hg.last i (.inl hold)).2, hg.stale i word (hsame.symm.trans hloaded) hold⟩
  · obtain ⟨word', hword', hone, -⟩ := hadvancing
    cases hloaded.symm.trans hword'
    cases hword.symm.trans hword'
    rw [hc.word, doGetThreadsInPreviousEpoch_pack g (hc.lt hι) hc.le] at hone
    rw [hc.word, doGetThreadCount_pack g (hc.lt hι) hc.le]
    exact ⟨hone, id⟩

omit [DecidableEq ι] in
include hc hι hg hres in
/-- While the orphans are handled in single thread mode, the thread is the only one. -/
theorem Grace.single_go {stage : HandleOrphans} {caller : Caller} (hr : s.Rotating)
    (hpc : t.pc = .handleOrphans stage true caller) {j : ι} (hji : j ≠ i)
    (hj : (s.threads j).pc.counted = true) : ∃ e, (s.threads j).pc = .registerSpin e := by
  have hcall := go_callStep _ hres
  have hone : (∃ stage', (s.threads i).pc = .handleOrphans stage' true caller) ∨ n < 2 := by
    rcases hcall.single stage caller hpc with hold | hcount | ⟨word, rfl, hcount⟩
    · exact .inl hold
    · rw [hc.word, doGetThreadCount_pack g (hc.lt hι) hc.le] at hcount
      exact .inr hcount
    · have hadvancing := (go_loaded spurious _ hres).entered (hr.entered i) stage true word hpc
      exact .inr ((hg.loaded_go hc hι hres (by rw [hpc]; rfl) hadvancing).2.2 hcount)
  rcases hone with ⟨stage', hold⟩ | hone
  · exact hg.alone i stage' caller hold j hji hj
  · have hmark := hcall.unmarked (.inl (by rw [hpc]; rfl))
    have hstep := hc.stepOk hι i spurious
    rw [hres] at hstep
    have hcounted : (s.threads i).pc.counted = true := by
      have hcounted' : t.pc.counted = true := by rw [hpc]; rfl
      rcases hmark with rfl | ⟨rfl, -⟩
      · cases hstep.1 with
        | quiet _ hsame => exact hsame.symm.trans hcounted'
      · cases hstep.1 with
        | passes _ _ _ hold => exact hold
    have hle : #s.countedThreads ≤ 1 := by
      rw [hc.counted]
      omega
    exact absurd (card_le_one.mp hle j (by simpa [countedThreads] using hj) i
      (by simpa [countedThreads] using hcounted)) hji

include hc hι hg hres hquiet in
/-- Where the threads are after a step. -/
theorem Grace.go (hr : s.Rotating)
    (hfields : updateFields (s.inPreviousEpoch i) mark (g, n, p) = (g', n', p'))
    (hc' : Counts ⟨q, Function.update s.threads i t, s.marked i mark, s.requested⟩ g' n' p') :
    Grace ⟨q, Function.update s.threads i t, s.marked i mark, s.requested⟩
      (s.waitsAfter Pc.reading waits i (.go spurious)) n' p' := by
  have hcall := go_callStep _ hres
  refine ⟨fun x j hj => ?_, fun k stage caller hpc j hjk hj => ?_, fun k hpreparing => ?_,
    fun k word hloaded hadvancing hcount => ?_, fun x => ?_⟩
  · by_cases hji : j = i
    · subst hji
      simp only [Function.update_self]
      exact (hg.self_of_waits hres hj).2
    · simp only [Function.update_of_ne hji]
      exact hg.reading_of_waits hj
  · by_cases hki : k = i
    · subst hki
      simp only [Function.update_self] at hpc
      simp only [Function.update_of_ne hjk] at hj ⊢
      exact hg.single_go hc hι hres hr hpc hjk hj
    · simp only [Function.update_of_ne hki] at hpc
      by_cases hji : j = i
      · subst hji
        simp only [Function.update_self] at hj ⊢
        exact hg.alone_go hc hι hres hquiet hr hpc hki hj
      · simp only [Function.update_of_ne hji] at hj ⊢
        exact hg.alone k stage caller hpc j hjk hj
  · by_cases hki : k = i
    · subst hki
      have hok := hc'.thread k
      simp only [Function.update_self] at hpreparing hok
      rcases hpreparing with hadvancing | ⟨word, hpc⟩
      · have hw := hok.waited_of_advancing hadvancing
        obtain ⟨word, hloaded, -⟩ := id hadvancing
        obtain ⟨rfl, hone, -⟩ := hg.loaded_go hc hι hres hloaded hadvancing
        cases hfields
        exact ⟨hw, hone⟩
      · -- The orphans have been handled before or by this step.
        have hold : Preparing (s.threads k) := by
          rcases hcall.prepared word hpc with hold | ⟨stage, single, word', hold⟩
          · exact .inr hold
          · exact .inl (hr.entered k stage single word' hold)
        have hmark := hcall.unmarked (.inr (.inr (by rw [hpc]; rfl)))
        rcases hmark with rfl | ⟨-, -, hrotated⟩
        · cases hfields
          exact hg.last k hold
        · rw [hpc] at hrotated
          exact Bool.noConfusion hrotated
    · simp only [Function.update_of_ne hki] at hpreparing
      obtain ⟨hw, hone, -⟩ := hg.last_go hc hι hres hquiet hpreparing hki hfields
      exact ⟨hw, hone⟩
  · by_cases hki : k = i
    · subst hki
      simp only [Function.update_self] at hloaded hadvancing
      obtain ⟨rfl, -, hone⟩ := hg.loaded_go hc hι hres hloaded hadvancing
      cases hfields
      exact hone hcount
    · simp only [Function.update_of_ne hki] at hloaded hadvancing
      obtain ⟨-, -, hle⟩ := hg.last_go hc hι hres hquiet (.inl hadvancing) hki hfields
      exact hle.trans_lt (hg.stale k word hloaded hadvancing hcount)
  · have hle : s.qsbr.deallocated.count x ≤ q.deallocated.count x :=
      hcall.deallocated.sublist.count_le x
    exact (hg.once x).trans (Nat.succ_le_succ hle)

end Go

/-! ## 3. The start of a call -/

section Start

variable {q : Qsbr} {t : QsbrPerThread} {requested : List Nat}

omit [Fintype ι] in
/-- Where the threads are when one of them has started a call. -/
theorem Grace.start (h : s.Grace waits n p)
    (hreading : (s.threads i).pc.reading = true → t.pc.reading = true)
    (hidle : t.pc.counted = true → (s.threads i).pc = .idle) (hhandling : t.pc.handling = false)
    (hloaded : t.pc.loaded = none) (hrotated : t.pc.rotated = false)
    (honce : ∀ x, requested.count x ≤ q.deallocated.count x + 1) :
    Grace ⟨q, Function.update s.threads i t, s.inPreviousEpoch, requested⟩ waits n p := by
  have hnot : ∀ word, t.pc.loaded ≠ some word := by simp [hloaded]
  refine ⟨fun x j hj => ?_, fun k stage caller hpc j hjk hj => ?_, fun k hpreparing => ?_,
    fun k word hword hadvancing => ?_, honce⟩
  · by_cases hji : j = i
    · subst hji
      simp only [Function.update_self]
      exact hreading (h.reading x j hj)
    · simp only [Function.update_of_ne hji]
      exact h.reading x j hj
  · by_cases hki : k = i
    · subst hki
      simp only [Function.update_self] at hpc
      rw [hpc] at hhandling
      exact Bool.noConfusion hhandling
    · simp only [Function.update_of_ne hki] at hpc
      by_cases hji : j = i
      · subst hji
        simp only [Function.update_self] at hj
        -- A thread that is idle is not alone.
        have hpc' := hidle hj
        obtain ⟨e, hspin⟩ := h.alone k stage caller hpc j hjk (by rw [hpc']; rfl)
        exact absurd (hpc'.symm.trans hspin) (by simp)
      · simp only [Function.update_of_ne hji] at hj ⊢
        exact h.alone k stage caller hpc j hjk hj
  · by_cases hki : k = i
    · subst hki
      simp only [Function.update_self] at hpreparing
      rcases hpreparing with ⟨word, hword, -⟩ | ⟨word, hpc⟩
      · exact absurd hword (hnot word)
      · rw [hpc] at hrotated
        exact Bool.noConfusion hrotated
    · simp only [Function.update_of_ne hki] at hpreparing
      exact h.last k hpreparing
  · by_cases hki : k = i
    · subst hki
      simp only [Function.update_self] at hword
      exact absurd hword (hnot word)
    · simp only [Function.update_of_ne hki] at hword hadvancing
      exact h.stale k word hword hadvancing

/-- What the places hold when a thread has started a call. -/
theorem Kept.start (h : s.Kept waits g) (hplaced : s.Placed P C H)
    (hi : HoldsOk (waits · i = false) (s.Near waits) (Safe waits) g q.nodes t)
    (hrotated : (s.threads i).pc.rotated = false)
    (hhead : q.orphanList .previous = s.qsbr.orphanList .previous)
    (hframe : ∀ a node, s.qsbr.nodes a = some node → q.nodes a = some node) :
    Kept ⟨q, Function.update s.threads i t, s.inPreviousEpoch, requested⟩ waits g := by
  have hsame : ∀ a ∈ (↑P + ↑C + ∑ i, ↑(H i) : Multiset Nat), q.nodes a = s.qsbr.nodes a := by
    intro a ha
    obtain ⟨node, hnode⟩ := hplaced.exists_node ha
    rw [hnode, hframe a node hnode]
  refine ⟨fun j => ?_, fun hall => ?_⟩
  · by_cases hji : j = i
    · subst hji
      simp only [Function.update_self]
      exact hi
    · simp only [Function.update_of_ne hji]
      refine (h.holds j).congr (hplaced.thread j) fun a ha => hsame a ?_
      exact Multiset.mem_add.mpr (.inr (Multiset.mem_sum.mpr ⟨j, mem_univ j, ha⟩))
  · show ListHas _ q.nodes (q.orphanList .previous)
    rw [hhead]
    refine (h.list fun j => ?_).congr hplaced.previous fun a ha => hsame a (by simp [ha])
    by_cases hji : j = i
    · rw [hji]
      exact hrotated
    · simpa only [Function.update_of_ne hji] using hall j

end Start

end Places

/-! ## 4. Every run -/

theorem Kept.init : (init : QsbrSystem ι).Kept (fun _ _ => false) 0 := by
  refine ⟨fun i => ⟨?_, ?_, ?_, ?_, ?_, trivial, ?_⟩, fun _ => ⟨[], .nil, ?_⟩⟩
  · simp [QsbrSystem.init]
  · intro k r hr
    cases k <;> exact absurd hr List.not_mem_nil
  · exact fun r hr => absurd hr List.not_mem_nil
  · simp [Behind, QsbrSystem.init, Pc.counted, Pc.bumping]
  · simp [QsbrSystem.init, Pc.single]
  · simp [QsbrSystem.init]
  · exact fun a ha => absurd ha List.not_mem_nil

theorem Grace.init : (init : QsbrSystem ι).Grace (fun _ _ => false) 0 0 := by
  refine ⟨?_, ?_, ?_, ?_, ?_⟩
  · simp
  · simp [QsbrSystem.init]
  · simp [Preparing, Advancing, QsbrSystem.init, Pc.loaded]
  · simp [QsbrSystem.init, Pc.loaded]
  · simp [QsbrSystem.init]

end QsbrSystem

namespace Watched

variable {ι : Type} [Fintype ι] [DecidableEq ι]

open QsbrSystem

/-- Every place holds what its pointers allow. -/
def Sound (w : Watched ι) : Prop :=
  w.system.Rotating ∧ (∃ P C H, w.system.Placed P C H) ∧
    ∃ g n p, w.system.Counts g n p ∧ w.system.Kept w.waits g ∧ w.system.Grace w.waits n p

variable {w w' : Watched ι} {e : ι × Action}

omit [Fintype ι] [DecidableEq ι] in
/-- A step that counts a thread in is one of `Registers`. -/
theorem registers_of_joins {s : QsbrSystem ι} {i : ι} {spurious b : Bool} {q : Qsbr} {t : QsbrPerThread}
    (hres : s.qsbr.go (s.threads i) spurious = .ok (q, t, .joins b)) :
    s.Registers (i, .go spurious) := by
  obtain ⟨hd, hpc, rfl⟩ := (go_callStep _ hres).registers b rfl
  exact ⟨hd, hpc, rfl⟩

omit [DecidableEq ι] in
theorem Sound.init : (init : Watched ι).Sound :=
  ⟨.init, Placed.init, 0, 0, 0, .init, .init, .init⟩

/-- Every step keeps that. -/
theorem Sound.step (h : w.Sound) (hι : Fintype.card ι < 2 ^ 30) (hstep : Step Pc.reading w e w')
    (hquiet : w.Undisturbed e) : w'.Sound := by
  obtain ⟨s, waits⟩ := w
  obtain ⟨s', waits'⟩ := w'
  obtain ⟨i, a⟩ := e
  obtain ⟨hr, ⟨P, C, H, hplaced⟩, g, n, p, hc, hkept, hg⟩ := h
  obtain ⟨hstep, howned, hwaits⟩ := hstep
  simp only at hr hplaced hc hkept hg hstep howned hwaits
  obtain ⟨g', n', p', hc'⟩ := hc.step hι hstep
  have hr' := hr.step hι hstep hc'
  obtain ⟨P', C', H', hplaced'⟩ := hplaced.step hr hc hstep
  refine ⟨hr', ⟨P', C', H', hplaced'⟩, g', n', p', hc', ?_⟩
  subst hwaits
  obtain ⟨hallows, hact⟩ := hstep
  -- A call is started: the state word stays as it is.
  have hstart : s'.qsbr.state = s.qsbr.state → g' = g ∧ n' = n ∧ p' = p := by
    intro hstate
    have hfields := (hc'.fields_eq hι).symm.trans ((congrArg fields hstate).trans (hc.fields_eq hι))
    cases hfields
    exact ⟨rfl, rfl, rfl⟩
  have hidle : ∀ {pc : Pc}, (s.threads i).pc = .idle → pc.reading = true → pc.plain = true →
      pc.bumping = false → pc.single = false →
      HoldsOk (waits · i = false) (s.Near waits) (Safe waits) g s.qsbr.nodes { s.threads i with pc } := by
    intro pc hpc hreading hplain hbumping hsingle
    refine (hkept.holds i).setPc hplain (fun _ => by rw [hpc]; rfl) (fun hb => ?_) fun hs => ?_
    · exact absurd (hbumping.symm.trans hb) Bool.false_ne_true
    · exact absurd (hsingle.symm.trans hs) Bool.false_ne_true
  cases a with
  | register a b =>
    obtain ⟨hpc, -, hab, ha, hb⟩ := hallows
    cases hact
    obtain ⟨rfl, rfl, rfl⟩ := hstart rfl
    refine ⟨hkept.start hplaced ((hkept.holds i).goOn rfl (fun k => by cases k <;> rfl) (fun hb => ?_)
      (fun hs => absurd hs Bool.false_ne_true) trivial (by simp)) (by rw [hpc]; rfl) rfl
      fun x node hx => ?_,
      hg.start (fun hreading => ?_) (fun hc => absurd hc Bool.false_ne_true) rfl rfl rfl hg.once⟩
    · rcases hb with ⟨hb, -⟩ | hb <;> exact absurd hb Bool.false_ne_true
    · have hxa : x ≠ a := by
        rintro rfl
        cases ha.symm.trans hx
      have hxb : x ≠ b := by
        rintro rfl
        cases hb.symm.trans hx
      simpa [Qsbr.setNode, Function.update_of_ne, hxa, hxb] using hx
    · rw [hpc] at hreading
      exact absurd hreading Bool.false_ne_true
  | deallocate pointer =>
    obtain ⟨hpc, -⟩ := hallows
    cases hact
    obtain ⟨rfl, rfl, rfl⟩ := hstart rfl
    refine ⟨hkept.start hplaced (hidle hpc rfl rfl rfl rfl) (by rw [hpc]; rfl) rfl fun _ _ => id,
      hg.start (fun _ => rfl) (fun _ => hpc) rfl rfl rfl fun x => ?_⟩
    have hpointer := howned pointer rfl
    by_cases hx : x = pointer
    · rw [hx, List.count_cons_self, hpointer]
      exact le_rfl
    · rw [List.count_cons_of_ne (Ne.symm hx)]
      exact hg.once x
  | quiescent =>
    obtain ⟨hpc, -⟩ := hallows
    cases hact
    obtain ⟨rfl, rfl, rfl⟩ := hstart rfl
    exact ⟨hkept.start hplaced (hidle hpc rfl rfl rfl rfl) (by rw [hpc]; rfl) rfl fun _ _ => id,
      hg.start (fun _ => rfl) (fun _ => hpc) rfl rfl rfl hg.once⟩
  | unregister =>
    obtain ⟨hpc, -⟩ := hallows
    cases hact
    obtain ⟨rfl, rfl, rfl⟩ := hstart rfl
    exact ⟨hkept.start hplaced (hidle hpc rfl rfl rfl rfl) (by rw [hpc]; rfl) rfl fun _ _ => id,
      hg.start (fun _ => rfl) (fun _ => hpc) rfl rfl rfl hg.once⟩
  | go spurious =>
    simp only [act] at hact
    cases hres : s.qsbr.go (s.threads i) spurious with
    | error fault =>
      rw [hres] at hact
      cases hact
    | ok r =>
      obtain ⟨q, t, mark⟩ := r
      rw [hres] at hact
      cases hact
      have hgo := hc.stepOk hι i spurious
      rw [hres] at hgo
      obtain ⟨g₁, n₁, p₁, hfields, hc₁⟩ := hc.effect hgo.1 hgo.2
      have heq := (hc'.fields_eq hι).symm.trans (hc₁.fields_eq hι)
      cases heq
      have hjoins : ∀ b, mark = .joins b → ∀ j, ¬ Preparing (s.threads j) := by
        rintro b rfl
        exact hquiet (registers_of_joins hres)
      exact ⟨hkept.go hc hι hg hres hr hplaced hfields hplaced',
        hg.go hc hι hres hjoins hr hfields hc'⟩

/-! ## 5. Given runs -/

-- By the option that holds the word, not by a search through all words.
instance (t : QsbrPerThread) : Decidable (Advancing t) :=
  Option.decidableExistsMem (p := fun word => doGetThreadsInPreviousEpoch word = 1 ∧
    (t.lastSeenQuiescentStateEpoch ≠ doGetEpoch word ∨ t.quiescentStatesSinceEpochChange = 0)) t.pc.loaded

instance (t : QsbrPerThread) : Decidable (Preparing t) :=
  decidable_of_iff (Advancing t ∨ t.pc.rotated = true ∧ t.pc.changing = false) (or_congr_right (by
    cases t.pc with
    | unregisterTry word prepared => cases prepared <;> simp [Pc.rotated, Pc.changing]
    | _ => simp [Pc.rotated, Pc.changing]))

omit [Fintype ι] [DecidableEq ι] in
instance (s : QsbrSystem ι) (e : ι × Action) : Decidable (s.Registers e) :=
  inferInstanceAs (Decidable ((s.threads e.1).deferred = [] ∧
    (s.threads e.1).pc = .registerCas s.qsbr.state ∧ e.2 = .go false))

instance (w : Watched ι) (e : ι × Action) : Decidable (w.Undisturbed e) :=
  inferInstanceAs (Decidable (w.system.Registers e → ∀ j, ¬ Preparing (w.system.threads j)))

instance (w : Watched ι) : Decidable w.ReclaimLaw :=
  inferInstanceAs (Decidable (∀ i, ∀ d ∈ (w.system.threads i).deferred, ∀ j, w.waits d.target j = false))

omit [Fintype ι] in
/-- A pointer is not passed to `on_next_epoch_deallocate` again before it has been deallocated. -/
def owns (w : Watched ι) : Action → Bool
  | .deallocate pointer => w.system.requested.count pointer = w.system.qsbr.deallocated.count pointer
  | _ => true

omit [Fintype ι] in
/-- Take the given steps, if they are allowed and each satisfies the condition. -/
def execute (present : Pc → Bool) (C : Watched ι → ι × Action → Prop) [∀ w e, Decidable (C w e)]
    (w : Watched ι) : List (ι × Action) → Option (Watched ι)
  | [] => some w
  | e :: es =>
    if w.system.Allows e.1 e.2 ∧ w.owns e.2 = true ∧ C w e then
      match w.system.act e.1 e.2 with
      | .ok s => execute present C ⟨s, w.system.waitsAfter present w.waits e.1 e.2⟩ es
      | .error _ => none
    else none

section Execute

variable {present : Pc → Bool} {C : Watched ι → ι × Action → Prop} [∀ w e, Decidable (C w e)]
  {es : List (ι × Action)}

omit [Fintype ι] in
theorem run_of_execute (h : w.execute present C es = some w') :
    Run (fun w e w' => Step present w e w' ∧ C w e) w es w' := by
  induction es generalizing w with
  | nil =>
    cases h
    exact .nil _
  | cons e es ih =>
    rw [execute] at h
    split at h
    · rename_i hallowed
      obtain ⟨hallows, howns, hC⟩ := hallowed
      split at h
      · rename_i s hact
        refine .cons ⟨⟨⟨hallows, hact⟩, fun pointer hpointer => ?_, rfl⟩, hC⟩ (ih h)
        rw [hpointer] at howns
        exact of_decide_eq_true howns
      · cases h
    · cases h

omit [Fintype ι] in
theorem exists_run {P : Watched ι → Prop} [DecidablePred P]
    (h : (w.execute present C es).any (fun w' => P w') = true) :
    ∃ w', Run (fun w e w' => Step present w e w' ∧ C w e) w es w' ∧ P w' := by
  cases hrun : w.execute present C es with
  | none =>
    rw [hrun] at h
    cases h
  | some w' =>
    rw [hrun] at h
    exact ⟨w', run_of_execute hrun, of_decide_eq_true h⟩

end Execute

/-! ## 6. Reclamation -/

/-- In every run in which no thread registers while another one that unregisters is about to advance
    the epoch, a pointer that is handed to `qsbr::deallocate` waits for nobody: every other thread that
    was registered and outside of `quiescent` when `on_next_epoch_deallocate` loaded the state word has
    begun to pass through a quiescent state or to leave since. -/
theorem reclaimLaw_of_run (hι : Fintype.card ι < 2 ^ 30) {es : List (ι × Action)}
    (hrun : Run (fun w e w' => Step Pc.reading w e w' ∧ w.Undisturbed e) init es w) :
    w.ReclaimLaw := by
  have hsound : w.Sound := hrun.invariant (I := Sound) (fun h hstep => h.step hι hstep.1 hstep.2) .init
  obtain ⟨-, -, g, n, p, -, hkept, -⟩ := hsound
  exact fun i d hd => (hkept.holds i).deferred d hd

section Schedules

variable {ι : Type}

/-- A call of one thread, in `k` steps after its start. -/
def call (i : ι) (a : Action) (k : Nat) : List (ι × Action) := (i, a) :: List.replicate k (i, .go false)

/-- The request of a thread passes through both of its vectors: for each epoch change both threads
    pass through a quiescent state. -/
def twoEpochs (i j : ι) : List (ι × Action) :=
  call i (.register 0 1) 2 ++ call j (.register 2 3) 2 ++ call i (.deallocate 7) 1 ++
    call i .quiescent 2 ++ call j .quiescent 12 ++ call i .quiescent 2 ++ call j .quiescent 12 ++
    call i .quiescent 1

/-- The first thread is inside of `quiescent` when the second one requests the deallocation and
    leaves: as the only thread it frees the orphans in the same call. -/
def insideQuiescent (i j : ι) : List (ι × Action) :=
  call i (.register 0 1) 2 ++ call j (.register 2 3) 2 ++ call i .quiescent 1 ++
    call j (.deallocate 7) 1 ++ call j .unregister 5 ++ List.replicate 5 (i, .go false)

/-- The fourth thread registers when the first one, which unregisters, has handled the orphans for an
    epoch change; this does not take place, and the orphans are handled again for the next one. -/
def registering (i j k l : ι) : List (ι × Action) :=
  call i (.register 0 1) 2 ++ call j (.register 2 3) 2 ++ call k (.register 4 5) 2 ++
    call k .quiescent 2 ++ call j (.deallocate 7) 1 ++ call j .unregister 5 ++
    call i .unregister 6 ++ call l (.register 6 7) 2 ++ List.replicate 2 (i, .go false) ++
    call l .quiescent 5

end Schedules

theorem reclaimLaw_of_run_two : ∃ w : Watched (Fin 2),
    Run (fun w e w' => Step Pc.reading w e w' ∧ w.Undisturbed e) init (twoEpochs 0 1) w ∧
      (∃ d ∈ (w.system.threads 0).deferred, d.target = 7) ∧ w.ReclaimLaw := by
  obtain ⟨w, hrun, hdeferred⟩ : ∃ w : Watched (Fin 2),
      Run (fun w e w' => Step Pc.reading w e w' ∧ w.Undisturbed e) init (twoEpochs 0 1) w ∧
        ∃ d ∈ (w.system.threads 0).deferred, d.target = 7 := exists_run (by decide +kernel)
  exact ⟨w, hrun, hdeferred, reclaimLaw_of_run (by decide) hrun⟩

/-- A pointer may be handed over before a thread that is inside of `quiescent` has returned from it,
    and, if a thread registers at the wrong time, while another one may still use it. -/
theorem not_reclaimLaw_of_run :
    (∃ w : Watched (Fin 2), Run (fun w e w' => Step Pc.registered w e w' ∧ w.Undisturbed e) init
      (insideQuiescent 0 1) w ∧ ¬ w.ReclaimLaw) ∧
    ∃ w : Watched (Fin 4), Run (Step Pc.reading) init (registering 0 1 2 3) w ∧ ¬ w.ReclaimLaw := by
  refine ⟨exists_run (by decide +kernel), ?_⟩
  obtain ⟨w, hrun, hlaw⟩ : ∃ w : Watched (Fin 4),
      Run (fun w e w' => Step Pc.reading w e w' ∧ True) init (registering 0 1 2 3) w ∧ ¬ w.ReclaimLaw :=
    exists_run (by decide +kernel)
  exact ⟨w, hrun.mono And.left, hlaw⟩

end Watched

end Unodb
