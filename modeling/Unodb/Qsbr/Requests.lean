import Unodb.Qsbr.Lists
import Unodb.Qsbr.Threads

/-!
# No request is lost or executed twice

Only one thread at a time takes the orphan lists, so every pointer passed to
`on_next_epoch_deallocate` stays in one place until it is deallocated.
-/

open Finset

namespace Unodb

open QsbrState

/-! ## 1. One thread at a time handles the orphans -/

/-- `unregister_thread` has found that the thread is the last one in the previous epoch, and has not
    handled the orphans yet. -/
def Advancing (t : QsbrPerThread) : Prop :=
  ∃ word, t.pc.loaded = some word ∧ doGetThreadsInPreviousEpoch word = 1 ∧
    (t.lastSeenQuiescentStateEpoch ≠ doGetEpoch word ∨ t.quiescentStatesSinceEpochChange = 0)

/-- `unregister_thread` handles the orphans in that case only. -/
def EnteredOk (t : QsbrPerThread) : Prop :=
  ∀ stage single word, t.pc = .handleOrphans stage single (.unregisterThread word) → Advancing t

section Advancing

variable {q : Qsbr} {t t' : QsbrPerThread} {g : Epoch} {p : Nat} {w : Bool}

theorem PcOk.waited_of_advancing (h : PcOk g p w t) (ha : Advancing t) : w = true := by
  obtain ⟨word, hloaded, -, hnot⟩ := ha
  unfold PcOk at h
  cases hpc : t.pc with
  | handleOrphans stage single caller =>
    rw [hpc] at h hloaded
    cases caller with
    | changeEpoch => exact absurd hloaded (by simp [Pc.loaded])
    | unregisterThread => exact h.1
  | unregisterTry word' prepared =>
    rw [hpc] at h hloaded
    cases prepared with
    | true => exact absurd hloaded (by simp [Pc.loaded])
    | false =>
      have hword : word' = word := by simpa [Pc.loaded] using hloaded
      subst hword
      obtain ⟨-, e, n', p', rfl, hp', hn', -, hcase⟩ := h
      rw [doGetEpoch_pack e hn' hp'] at hnot
      rcases hcase with ⟨hquiescent, hstates, -⟩ | ⟨-, hw, -⟩
      · rcases hnot with hnot | hnot
        · exact absurd hquiescent hnot
        · omega
      · exact hw
  | _ =>
    rw [hpc] at hloaded
    exact absurd hloaded (by simp [Pc.loaded])

/-- What a step does to the word that `unregister_thread` has loaded. -/
structure LoadedStep (q : Qsbr) (t : QsbrPerThread) (r : Qsbr.Result) : Prop where
  loaded : r.2.1.pc.loaded = none ∨
    (r.2.1.pc.loaded = t.pc.loaded ∧
      r.2.1.lastSeenQuiescentStateEpoch = t.lastSeenQuiescentStateEpoch ∧
      r.2.1.quiescentStatesSinceEpochChange = t.quiescentStatesSinceEpochChange) ∨
    (r.2.1.pc.loaded = some q.state ∧ r.1.state = q.state)
  entered : EnteredOk t → EnteredOk r.2.1

theorem LoadedStep.of_none {q' : Qsbr} {mark : Mark} (h : t'.pc.loaded = none) :
    LoadedStep q t (q', t', mark) := by
  refine ⟨.inl h, fun _ stage single word hpc => ?_⟩
  rw [hpc] at h
  exact absurd h (by simp [Pc.loaded])

theorem getThreadsInPreviousEpoch_ensures (word : BitVec 64) :
    Ensures (getThreadsInPreviousEpoch word) (· = doGetThreadsInPreviousEpoch word) :=
  .bind_any fun _ => .pure rfl

theorem getEpoch_ensures (word : BitVec 64) : Ensures (getEpoch word) (· = doGetEpoch word) :=
  .bind_any fun _ => .pure rfl

/-- The word stays, and so does what it is compared with. -/
theorem LoadedStep.of_same {q' : Qsbr} {mark : Mark} (hloaded : t'.pc.loaded = t.pc.loaded)
    (hquiescent : t'.lastSeenQuiescentStateEpoch = t.lastSeenQuiescentStateEpoch)
    (hstates : t'.quiescentStatesSinceEpochChange = t.quiescentStatesSinceEpochChange)
    (hentered : EnteredOk t → EnteredOk t') : LoadedStep q t (q', t', mark) :=
  ⟨.inr (.inl ⟨hloaded, hquiescent, hstates⟩), hentered⟩

theorem Advancing.congr (h : Advancing t) (hloaded : t'.pc.loaded = t.pc.loaded)
    (hquiescent : t'.lastSeenQuiescentStateEpoch = t.lastSeenQuiescentStateEpoch)
    (hstates : t'.quiescentStatesSinceEpochChange = t.quiescentStatesSinceEpochChange) :
    Advancing t' := by
  obtain ⟨word, hword, hone, hnot⟩ := h
  refine ⟨word, hloaded.trans hword, hone, ?_⟩
  rw [hquiescent, hstates]
  exact hnot

theorem unregisterTry_loaded {word : BitVec 64} {prepared spurious : Bool}
    (hpc : t.pc = .unregisterTry word prepared) :
    Ensures (q.unregisterTry t word prepared spurious) (LoadedStep q t) := by
  have hretry : LoadedStep q t (q, { t with pc := .unregisterTry q.state prepared }, .nothing) := by
    cases prepared with
    | true => exact .of_none rfl
    | false => exact ⟨.inr (.inr ⟨rfl, rfl⟩), fun _ _ _ _ h => absurd h (by simp)⟩
  unfold Qsbr.unregisterTry
  refine .bind (getThreadsInPreviousEpoch_ensures word) ?_
  rintro _ rfl
  refine .ite (fun _ => .bind_any fun _ => .bind_any fun _ => .bind_any fun _ =>
    .ite (fun _ => .pure (.of_none rfl)) fun _ => .pure hretry) fun _ => ?_
  refine .bind (getEpoch_ensures word) ?_
  rintro _ rfl
  refine .bind_any fun single => ?_
  -- After the new state has been computed, either way.
  have hrest : ∀ {c' c'' : Prop} [Decidable c'] [Decidable c''] (e : Epoch)
      (newState : BitVec 64), Ensures (if decide (decide (t.lastSeenQuiescentStateEpoch ≠
          doGetEpoch word ∨ t.quiescentStatesSinceEpochChange = 0) = true ∧
          doGetThreadsInPreviousEpoch word = 1) = true ∧ (!prepared) = true then
        pure (q, { t with pc := .handleOrphans .takePrevious single (.unregisterThread word) },
          .nothing)
      else if c' then do
        let t ← t.advanceLastSeenEpoch single e []
        if c'' then
          return ({ q with state := newState },
            { t with pc := .unregisterBumpLoad e single }, .advances true)
        else
          return ({ q with state := newState }, { t with pc := .orphanLoad .previous }, .leaves)
      else pure (q, { t with pc := .unregisterTry q.state prepared }, .nothing) :
        Except Fault Qsbr.Result) (LoadedStep q t) := by
    intro c' c'' _ _ e newState
    refine .ite (fun hadvance => .pure ?_) fun _ => .ite (fun _ => .bind_any fun _ => .ite
      (fun _ => .pure (.of_none rfl)) fun _ => .pure (.of_none rfl)) fun _ => .pure hretry
    simp only [decide_eq_true_eq, Bool.not_eq_true'] at hadvance
    obtain ⟨⟨hnot, hone⟩, rfl⟩ := hadvance
    refine .of_same (by rw [hpc]; rfl) rfl rfl ?_
    intro _ stage single' word' hpc'
    exact ⟨word, rfl, hone, hnot⟩
  exact .ite (fun _ => .bind_any fun _ => hrest _ _) fun _ => .bind_any fun _ => hrest _ _

theorem handleOrphans_loaded {stage : HandleOrphans} {single : Bool} {caller : Caller}
    (hpc : t.pc = .handleOrphans stage single caller) :
    Ensures (q.handleOrphans t stage single caller) (LoadedStep q t) := by
  have hgo : ∀ (q' : Qsbr) (s : HandleOrphans) (ds : List Deferred), LoadedStep q t
      (q', { t with pc := .handleOrphans s single caller, deferred := ds }, .nothing) := by
    intro q' s ds
    have hloaded : (Pc.handleOrphans s single caller).loaded = t.pc.loaded := by
      rw [hpc]
      cases caller <;> rfl
    refine .of_same hloaded rfl rfl ?_
    intro hok stage' single' word' hpc'
    obtain ⟨-, -, rfl⟩ := Pc.handleOrphans.inj hpc'
    exact (hok stage single word' hpc).congr hloaded rfl rfl
  have hdone : ∀ q' : Qsbr, LoadedStep q t (q', { t with pc := caller.next }, .nothing) :=
    fun q' => .of_none (by cases caller <;> rfl)
  have hfree : ∀ (i : Nat) (f : Option Nat → HandleOrphans),
      Ensures (q.freeListNode t i fun next => .handleOrphans (f next) single caller)
        (LoadedStep q t) := fun i f => .bind_any fun node => .pure (hgo _ _ _)
  unfold Qsbr.handleOrphans
  cases stage with
  | takePrevious => exact .ok (hgo _ _ _)
  | takeCurrent => exact .ok (hgo _ _ _)
  | freePrevious list c =>
    cases list with
    | none => exact .ok (hgo _ _ _)
    | some i => exact hfree i fun next => .freePrevious next c
  | attach c =>
    dsimp only
    split
    · exact .ok (hdone _)
    · exact .ok (hgo _ _ _)
  | walk b c =>
    refine .bind_any fun node => ?_
    split
    · exact .pure (hgo _ _ _)
    · exact .pure (hgo _ _ _)
  | append b c => exact .bind_any fun node => .pure (hdone _)
  | freeCurrent list =>
    cases list with
    | none => exact .ok (hdone _)
    | some i => exact hfree i .freeCurrent

theorem go_loaded (spurious : Bool) : Ensures (q.go t spurious) (LoadedStep q t) := by
  have hafter : ∀ (q' : Qsbr) (k : Interval), Ensures
      (do return (q', ← (t.releaseNode k).afterOrphan k, .nothing)) (LoadedStep q t) := by
    intro q' k
    refine .bind (afterOrphan_ensures _ k) ?_
    rintro _ rfl
    exact .pure (.of_none (by cases k <;> rfl))
  have hfinish : ∀ (t : QsbrPerThread) (single : Bool) (e : Epoch),
      Ensures (t.quiescentFinish single e) fun t' => t'.pc.loaded = none := by
    intro t single e
    refine .bind_any fun _ => .ite (fun _ => .bind_any fun _ => .pure ?_) fun _ => .pure rfl
    rw [execute_pc]
    rfl
  unfold Qsbr.go
  split
  · refine .bind_any fun _ => .pure (.of_same rfl rfl rfl ?_)
    intro hok stage single word hpc
    exact (hok stage single word hpc).congr rfl rfl rfl
  · cases hpc : t.pc with
    | paused | idle => exact .ok (.of_same rfl rfl rfl id)
    | registerLoad | changeLoad | changeBumpLoad | unregisterBumpLoad => exact .ok (.of_none rfl)
    | unregisterLoad =>
      exact .ok ⟨.inr (.inr ⟨rfl, rfl⟩), fun _ _ _ _ h => absurd h (by simp)⟩
    | registerCas word =>
      refine .bind_any fun _ => .bind_any fun _ => .bind_any fun _ => .ite (fun _ => ?_) fun _ => ?_
      · exact .bind_any fun _ => .ite (fun _ => .pure (.of_none rfl)) fun _ => .pure (.of_none rfl)
      · exact .bind_any fun _ => .bind_any fun _ => .bind_any fun _ =>
          .ite (fun _ => .pure (.of_none rfl)) fun _ => .pure (.of_none rfl)
    | registerSpin e =>
      exact .bind_any fun _ => .ite (fun _ => .pure (.of_none rfl))
        fun _ => .pure (.of_none (by rw [hpc]; rfl))
    | deallocateLoad pointer =>
      exact .bind_any fun _ => .bind_any fun _ => .ite
        (fun _ => .bind_any fun _ => .pure (.of_none rfl)) fun _ => .ite
        (fun _ => .bind_any fun _ => .bind_any fun _ => .pure (.of_none rfl))
        fun _ => .pure (.of_none rfl)
    | quiescentLoad =>
      have hrest : ∀ t₂ : QsbrPerThread, ∀ (e : Epoch) (single : Bool), Ensures (do
          assertThat (e = t₂.lastSeenQuiescentStateEpoch)
          if t₂.quiescentStatesSinceEpochChange = 0 then
            return (q, { t₂ with pc := .removeFetchSub e single }, .nothing)
          else
            return (q, { t₂ with
              quiescentStatesSinceEpochChange := t₂.quiescentStatesSinceEpochChange + 1
              pc := .idle }, .nothing)) (LoadedStep q t) :=
        fun _ _ _ => .bind_any fun _ => .ite (fun _ => .pure (.of_none rfl))
          fun _ => .pure (.of_none rfl)
      exact .bind_any fun e => .bind_any fun single => .bind_any fun _ => .ite
        (fun _ => .bind_any fun _ => .bind_any fun t₂ => hrest t₂ e single)
        fun _ => .bind_any fun t₂ => hrest t₂ e single
    | removeFetchSub e single =>
      refine .bind_any fun _ => .bind_any fun _ => .bind_any fun _ => .bind_any fun _ =>
        .bind_any fun _ => .bind_any fun _ => .bind_any fun _ => .bind_any fun _ =>
        .ite (fun _ => ?_) fun _ => .pure (.of_none rfl)
      exact .bind (hfinish t single e) fun t' ht' => .pure (.of_none ht')
    | handleOrphans stage single caller => exact handleOrphans_loaded hpc
    | changeCas e single word =>
      exact .bind_any fun _ => .bind_any fun _ => .bind_any fun _ => .ite
        (fun _ => .bind_any fun _ => .bind_any fun _ => .pure (.of_none rfl))
        fun _ => .pure (.of_none rfl)
    | changeBumpStore e single count =>
      exact .bind (hfinish t single _) fun t' ht' => .pure (.of_none ht')
    | unregisterTry word prepared => exact unregisterTry_loaded hpc
    | unregisterBumpStore e single count => exact .ok (.of_none rfl)
    | orphanLoad k =>
      dsimp only [Qsbr.orphanLoad]
      split
      · exact .error
      · exact .ite (fun _ => hafter _ k) fun _ => .pure (.of_none rfl)
    | orphanCas k =>
      dsimp only [Qsbr.orphanCas]
      split
      · exact .error
      · exact .bind_any fun node => .ite (fun _ => hafter _ k)
          fun _ => .pure (.of_none (by rw [hpc]; rfl))

end Advancing

namespace QsbrSystem

variable {ι : Type}

/-- At most one thread has found that it advances the epoch while it unregisters. -/
structure Rotating (s : QsbrSystem ι) : Prop where
  entered : ∀ i, EnteredOk (s.threads i)
  unique : ∀ i j, Advancing (s.threads i) → Advancing (s.threads j) → i = j

namespace Rotating

theorem init : (init : QsbrSystem ι).Rotating :=
  ⟨fun _ _ _ _ h => absurd h (by simp [QsbrSystem.init]),
    fun _ _ h => absurd h (by simp [Advancing, QsbrSystem.init, Pc.loaded])⟩

variable [Fintype ι] {s s' : QsbrSystem ι} {g : Epoch} {n p : Nat}

theorem waited (h : s.Counts g n p) {i : ι} (ha : Advancing (s.threads i)) :
    s.inPreviousEpoch i = true := (h.thread i).waited_of_advancing ha

/-- Only one thread at a time handles the orphan lists. -/
theorem handling_unique (hr : s.Rotating) (h : s.Counts g n p) {i j : ι}
    (hi : (s.threads i).pc.handling = true) (hj : (s.threads j).pc.handling = true) : i = j := by
  have hcases : ∀ k, (s.threads k).pc.handling = true →
      (s.threads k).pc.changing = true ∨ Advancing (s.threads k) := by
    intro k hk
    cases hpc : (s.threads k).pc with
    | handleOrphans stage single caller =>
      cases caller with
      | changeEpoch => exact .inl rfl
      | unregisterThread word => exact .inr (hr.entered k stage single word hpc)
    | _ =>
      rw [hpc] at hk
      exact absurd hk Bool.false_ne_true
  have hnot : ∀ k l, (s.threads k).pc.changing = true → Advancing (s.threads l) → False := by
    intro k l hk hl
    have hzero := (h.thread k).changing hk
    exact Nat.ne_of_gt (h.pos_of_waited (waited h hl)) hzero
  rcases hcases i hi with hci | hai <;> rcases hcases j hj with hcj | haj
  · exact h.unique i j hci hcj
  · exact absurd haj (hnot i j hci)
  · exact absurd hai (hnot j i hcj)
  · exact hr.unique i j hai haj

variable [DecidableEq ι]

omit [Fintype ι] in
theorem update (hr : s.Rotating) {i : ι} {t : QsbrPerThread} (hentered : EnteredOk t)
    (hunique : Advancing t → ∀ j, j ≠ i → ¬ Advancing (s.threads j)) :
    (∀ j, EnteredOk (Function.update s.threads i t j)) ∧
      ∀ j k, Advancing (Function.update s.threads i t j) →
        Advancing (Function.update s.threads i t k) → j = k := by
  refine ⟨fun j => ?_, fun j k hj hk => ?_⟩
  · by_cases hj : j = i
    · rw [hj, Function.update_self]
      exact hentered
    · rw [Function.update_of_ne hj]
      exact hr.entered j
  · by_cases hji : j = i <;> by_cases hki : k = i
    · rw [hji, hki]
    · rw [hji, Function.update_self] at hj
      rw [Function.update_of_ne hki] at hk
      exact absurd hk (hunique hj k hki)
    · rw [hki, Function.update_self] at hk
      rw [Function.update_of_ne hji] at hj
      exact absurd hj (hunique hk j hji)
    · rw [Function.update_of_ne hki] at hk
      rw [Function.update_of_ne hji] at hj
      exact hr.unique j k hj hk

/-- A thread finds that it advances the epoch when it is the only one in the previous epoch. -/
theorem step (hr : s.Rotating) (hι : Fintype.card ι < 2 ^ 30) {e : ι × Action}
    (hstep : Step s e s') (h' : s'.Counts g n p) : s'.Rotating := by
  obtain ⟨i, a⟩ := e
  obtain ⟨-, hact⟩ := hstep
  have hnone : ∀ t : QsbrPerThread, t.pc.loaded = none → EnteredOk t ∧ ¬ Advancing t := by
    intro t hloaded
    refine ⟨fun stage single word hpc => ?_, fun ⟨word, hword, _⟩ => ?_⟩
    · rw [hpc] at hloaded
      exact absurd hloaded (by simp [Pc.loaded])
    · rw [hloaded] at hword
      exact absurd hword (by simp)
  have hquiet : ∀ t : QsbrPerThread, t.pc.loaded = none →
      (∀ j, EnteredOk (Function.update s.threads i t j)) ∧
        ∀ j k, Advancing (Function.update s.threads i t j) →
          Advancing (Function.update s.threads i t k) → j = k :=
    fun t ht => hr.update (hnone t ht).1 fun ha => absurd ha (hnone t ht).2
  cases a with
  | register a b =>
    cases hact
    obtain ⟨hentered, hunique⟩ := hquiet { s.threads i with
      pc := .registerLoad
      previousIntervalOrphanListNode := some a
      currentIntervalOrphanListNode := some b } rfl
    exact ⟨hentered, hunique⟩
  | deallocate pointer =>
    cases hact
    obtain ⟨hentered, hunique⟩ := hquiet { s.threads i with pc := .deallocateLoad pointer } rfl
    exact ⟨hentered, hunique⟩
  | quiescent =>
    cases hact
    obtain ⟨hentered, hunique⟩ := hquiet { s.threads i with pc := .quiescentLoad } rfl
    exact ⟨hentered, hunique⟩
  | unregister =>
    cases hact
    obtain ⟨hentered, hunique⟩ := hquiet { s.threads i with pc := .unregisterLoad } rfl
    exact ⟨hentered, hunique⟩
  | go spurious =>
    simp only [act] at hact
    cases hres : s.qsbr.go (s.threads i) spurious with
    | error fault =>
      rw [hres] at hact
      cases hact
    | ok r =>
      obtain ⟨q, t, mark⟩ := r
      rw [hres] at hact
      cases hact
      obtain ⟨hloaded, hentered⟩ := go_loaded spurious _ hres
      obtain ⟨hentered', hunique⟩ := hr.update (i := i) (hentered (hr.entered i)) (by
        intro ha j hj haj
        rcases hloaded with hnil | ⟨hsame, hquiescent, hstates⟩ | ⟨hword, hstate⟩
        · exact (hnone t hnil).2 ha
        · exact hj (hr.unique j i haj (ha.congr hsame.symm hquiescent.symm hstates.symm))
        · -- The word has just been loaded: it counts one thread in the previous epoch.
          have hi := waited h' (i := i) (by simpa only [Function.update_self] using ha)
          have hj' := waited h' (i := j) (by simpa only [Function.update_of_ne hj] using haj)
          obtain ⟨word, hword', hone, -⟩ := ha
          have hp : p = 1 := by
            rw [hword] at hword'
            rw [← hone, ← Option.some.inj hword', ← hstate]
            exact (congrArg (fun f => f.2.2) (h'.fields_eq hι)).symm
          subst hp
          rw [h'.not_waited_of_ne hi hj] at hj'
          exact absurd hj' Bool.false_ne_true)
      exact ⟨hentered', hunique⟩

end Rotating

/-! ## 2. Every request is in one place -/

section Sums

variable {α M : Type} [Fintype ι] [DecidableEq ι] [AddCommMonoid M]

/-- A sum over the threads when one of them has changed. -/
theorem sum_update (F : α → M) (f : ι → α) (i : ι) (a : α) :
    ∑ j, F (Function.update f i a j) = F a + ∑ j ∈ univ.erase i, F (f j) := by
  rw [← add_sum_erase univ _ (mem_univ i), Function.update_self]
  congr 1
  apply sum_congr rfl
  intro j hj
  rw [Function.update_of_ne (ne_of_mem_erase hj)]

end Sums

/-- The pointers in the vectors and the local variables of a thread. -/
def heldBy (s : QsbrSystem ι) (i : ι) : Multiset Nat :=
  (s.threads i).vectors + (s.threads i).locals

/-- The orphan lists consist of the nodes `P` and `C`, and thread `i` has the nodes `H i`: its own
    ones and those of the lists its running call holds.  All these nodes are distinct, and each
    requested pointer is deallocated, in a vector or local variable of a thread, or in a node. -/
structure Placed [Fintype ι] (s : QsbrSystem ι) (P C : List Nat) (H : ι → List Nat) : Prop where
  previous : IsList ListNode.next s.qsbr.nodes (s.qsbr.orphanList .previous) P
  current : IsList ListNode.next s.qsbr.nodes (s.qsbr.orphanList .current) C
  thread : ∀ i, ThreadLists s.qsbr.nodes P (s.threads i) (H i)
  nodup : (↑P + ↑C + ∑ i, ↑(H i) : Multiset Nat).Nodup
  requests : (↑s.requested : Multiset Nat) = ↑s.qsbr.deallocated + ∑ i, s.heldBy i +
    requestsIn s.qsbr.nodes (↑P + ↑C + ∑ i, ↑(H i))

namespace Placed

variable [Fintype ι] [DecidableEq ι] {s : QsbrSystem ι} {P C : List Nat} {H : ι → List Nat} {i : ι}

theorem split (P C : List Nat) (H : ι → List Nat) (i : ι) :
    (↑P + ↑C + ∑ i, ↑(H i) : Multiset Nat) =
    ↑P + ↑C + ↑(H i) + ∑ j ∈ univ.erase i, ↑(H j) := by
  rw [← add_sum_erase univ _ (mem_univ i), add_assoc (_ + _)]

theorem toLocal (h : s.Placed P C H) (i : ι) : Local s.qsbr (s.threads i) P C (H i) := by
  refine ⟨h.previous, h.current, h.thread i, ?_⟩
  have hnodup := h.nodup
  rw [split P C H i] at hnodup
  exact Multiset.nodup_of_le (Multiset.le_add_right _ _) hnodup

/-- The nodes of the other threads are not among those of the thread and of the orphan lists. -/
theorem disjoint (h : s.Placed P C H) (i : ι) {a : Nat}
    (ha : a ∈ ∑ j ∈ univ.erase i, (↑(H j) : Multiset Nat)) :
    a ∉ (↑P + ↑C + ↑(H i) : Multiset Nat) := by
  have hnodup := h.nodup
  rw [split P C H i, Multiset.nodup_add] at hnodup
  exact fun hmem => Multiset.disjoint_left.mp hnodup.2.2 hmem ha

theorem mem_others {j : ι} (hj : j ≠ i) {a : Nat} (ha : a ∈ H j) :
    a ∈ ∑ j ∈ univ.erase i, (↑(H j) : Multiset Nat) :=
  Multiset.mem_sum.mpr ⟨j, mem_erase.mpr ⟨hj, mem_univ j⟩, ha⟩

/-- A step of thread `i` moves its nodes and requests and those of the orphan lists. -/
theorem update (h : s.Placed P C H) {q : Qsbr} {t : QsbrPerThread} {P' C' H' : List Nat}
    {f : ι → Bool} {requested : List Nat}
    (hprevious : IsList ListNode.next q.nodes (q.orphanList .previous) P')
    (hcurrent : IsList ListNode.next q.nodes (q.orphanList .current) C')
    (hthread : ThreadLists q.nodes P' t H')
    (hnodup : (↑P' + ↑C' + ↑H' + ∑ j ∈ univ.erase i, ↑(H j) : Multiset Nat).Nodup)
    (hframe : ∀ a ∈ ∑ j ∈ univ.erase i, (↑(H j) : Multiset Nat), q.nodes a = s.qsbr.nodes a)
    (hwalk : ∀ j, j ≠ i → WalkOk P (s.threads j).pc → WalkOk P' (s.threads j).pc)
    (hrequests : (↑requested : Multiset Nat) + (↑s.qsbr.deallocated + s.heldBy i +
        requestsIn s.qsbr.nodes (↑P + ↑C + ↑(H i))) =
      ↑s.requested + (↑q.deallocated + (t.vectors + t.locals) +
        requestsIn q.nodes (↑P' + ↑C' + ↑H'))) :
    Placed ⟨q, Function.update s.threads i t, f, requested⟩ P' C' (Function.update H i H') := by
  have hsum : ∑ j, (↑(Function.update H i H' j) : Multiset Nat) =
      ↑H' + ∑ j ∈ univ.erase i, ↑(H j) := sum_update (Multiset.ofList) H i H'
  refine ⟨hprevious, hcurrent, ?_, ?_, ?_⟩
  · intro j
    by_cases hj : j = i
    · subst hj
      simp only [Function.update_self]
      exact hthread
    · simp only [Function.update_of_ne hj]
      obtain ⟨⟨ls, hls, hH⟩, hown, hwalk', hhave⟩ := h.thread j
      have hsame : ∀ a ∈ H j, q.nodes a = s.qsbr.nodes a :=
        fun a ha => hframe a (mem_others hj ha)
      refine ⟨⟨ls, ?_, hH⟩, ?_, hwalk j hj hwalk', hhave⟩
      · apply IsList.forall₂_congr hls
        intro a ha
        apply hsame
        rw [hH]
        exact List.mem_append_right _ ha
      · intro k a ha
        obtain ⟨node, hnode, hempty⟩ := hown k a ha
        refine ⟨node, ?_, hempty⟩
        rw [← hnode]
        apply hsame
        rw [hH]
        exact List.mem_append_left _ (mem_ownNodes ha)
  · rw [hsum, ← add_assoc]
    exact hnodup
  · have hheld : ∑ j, heldBy ⟨q, Function.update s.threads i t, f, requested⟩ j =
        t.vectors + t.locals + ∑ j ∈ univ.erase i, s.heldBy j :=
      sum_update (fun t : QsbrPerThread => t.vectors + t.locals) s.threads i t
    have hrest := requestsIn_congr hframe
    have hold := h.requests
    rw [split P C H i, requestsIn_add, ← add_sum_erase univ _ (mem_univ i)] at hold
    rw [hold] at hrequests
    rw [hheld, hsum, ← add_assoc (_ + _), requestsIn_add, hrest]
    -- The contents of the other threads and nodes are on both sides.
    apply add_right_cancel (b := ↑s.qsbr.deallocated + s.heldBy i +
      requestsIn s.qsbr.nodes (↑P + ↑C + ↑(H i)))
    rw [hrequests]
    abel

omit [Fintype ι] [DecidableEq ι] in
theorem walkOk_of_not_handling {pc : Pc} (hpc : pc.handling = false) : WalkOk P pc := by
  cases pc with
  | handleOrphans => exact absurd hpc Bool.false_ne_true.symm
  | _ => trivial

omit [Fintype ι] [DecidableEq ι] in
/-- Nodes put before those of the list do not hurt who walks to its end. -/
theorem walkOk_suffix {P' : List Nat} {pc : Pc} (hsuffix : P <:+ P') (hok : WalkOk P pc) :
    WalkOk P' pc := by
  obtain ⟨l, rfl⟩ := hsuffix
  cases pc with
  | handleOrphans stage single caller =>
    cases stage with
    | walk a c => exact List.mem_append_right l hok
    | append a c =>
      have hlast : P.getLast? = some a := hok
      show (l ++ P).getLast? = some a
      rw [List.getLast?_append, hlast]
      rfl
    | _ => trivial
  | _ => trivial

theorem of_moves (h : s.Placed P C H) {q : Qsbr} {t : QsbrPerThread} {P' C' H' : List Nat}
    {f : ι → Bool}
    (hother : (s.threads i).pc.handling = true → ∀ j, j ≠ i → (s.threads j).pc.handling = false)
    (hmoves : Moves s.qsbr (s.threads i) P C (H i) q t P' C' H') :
    Placed ⟨q, Function.update s.threads i t, f, s.requested⟩ P' C' (Function.update H i H') := by
  refine h.update hmoves.previous hmoves.current hmoves.thread ?_ ?_ ?_ ?_
  · have hnodup := h.nodup
    rw [split P C H i] at hnodup
    exact Multiset.nodup_of_le (add_le_add_left hmoves.le _) hnodup
  · exact fun a ha => hmoves.frame a (h.disjoint i ha)
  · intro j hj hok
    by_cases hhandling : (s.threads i).pc.handling = true
    · exact walkOk_of_not_handling (hother hhandling j hj)
    · exact walkOk_suffix (hmoves.suffix (by simpa using hhandling)) hok
  · rw [hmoves.requests]
    rfl

omit [DecidableEq ι] in
/-- There is a node at each address. -/
theorem exists_node (h : s.Placed P C H) {a : Nat}
    (ha : a ∈ (↑P + ↑C + ∑ i, ↑(H i) : Multiset Nat)) : ∃ node, s.qsbr.nodes a = some node := by
  simp only [Multiset.mem_add, Multiset.mem_coe, Multiset.mem_sum, mem_univ, true_and] at ha
  rcases ha with (ha | ha) | ⟨j, ha⟩
  · exact h.previous.exists_node ha
  · exact h.current.exists_node ha
  · obtain ⟨⟨ls, hls, hH⟩, hown, -⟩ := h.thread j
    rw [hH] at ha
    rcases List.mem_append.mp ha with ha | ha
    · obtain ⟨k, hk⟩ := exists_of_mem_ownNodes ha
      obtain ⟨node, hnode, -⟩ := hown k a hk
      exact ⟨node, hnode⟩
    · exact IsList.forall₂_exists_node hls ha

/-- A call is started with its two list nodes at unused addresses. -/
theorem register (h : s.Placed P C H) {a b : Nat} {f : ι → Bool}
    (hpc : (s.threads i).pc = .paused) (hab : a ≠ b) (ha : s.qsbr.nodes a = none)
    (hb : s.qsbr.nodes b = none) :
    Placed ⟨(s.qsbr.setNode a (some {})).setNode b (some {}), Function.update s.threads i
      { s.threads i with
        pc := .registerLoad
        previousIntervalOrphanListNode := some a
        currentIntervalOrphanListNode := some b }, f, s.requested⟩ P C
      (Function.update H i [a, b]) := by
  -- The new nodes are at addresses that no list holds.
  have hfresh : ∀ {c x}, s.qsbr.nodes c = none →
      x ∈ (↑P + ↑C + ∑ i, ↑(H i) : Multiset Nat) → x ≠ c := by
    rintro c x hnone hx rfl
    obtain ⟨node, hnode⟩ := h.exists_node hx
    rw [hnone] at hnode
    exact absurd hnode (by simp)
  have hsame : ∀ x ∈ (↑P + ↑C + ∑ i, ↑(H i) : Multiset Nat),
      ((s.qsbr.setNode a (some {})).setNode b (some {})).nodes x = s.qsbr.nodes x := by
    intro x hx
    have hxa := hfresh ha hx
    have hxb := hfresh hb hx
    simp [Qsbr.setNode, Function.update_of_ne, hxa, hxb]
  have hnode : ∀ x ∈ [a, b],
      ((s.qsbr.setNode a (some {})).setNode b (some {})).nodes x = some {} := by
    intro x hx
    simp only [List.mem_cons, List.not_mem_nil, or_false] at hx
    rcases hx with rfl | rfl
    · simp [Qsbr.setNode, Function.update_of_ne, hab]
    · simp [Qsbr.setNode]
  -- A thread that is not registered has no list nodes.
  have hH : H i = [] := by
    obtain ⟨⟨ls, hls, hH⟩, -, -, hhave⟩ := h.thread i
    unfold NodesOk at hhave
    rw [hpc] at hls hhave
    cases hls
    rw [hH, QsbrPerThread.ownNodes, hhave.1, hhave.2]
    rfl
  have hall : (↑P + ↑C + ∑ i, ↑(H i) : Multiset Nat) =
      ↑P + ↑C + ∑ j ∈ univ.erase i, ↑(H j) := by
    rw [split P C H i, hH, Multiset.coe_nil, add_zero]
  have hP : ∀ x ∈ P, x ∈ (↑P + ↑C + ∑ i, ↑(H i) : Multiset Nat) := fun x hx => by simp [hx]
  have hC : ∀ x ∈ C, x ∈ (↑P + ↑C + ∑ i, ↑(H i) : Multiset Nat) := fun x hx => by simp [hx]
  refine h.update (h.previous.congr fun x hx => hsame x (hP x hx))
    (h.current.congr fun x hx => hsame x (hC x hx)) ?_ ?_ ?_ (fun _ _ => id) ?_
  · refine ⟨⟨[], .nil, rfl⟩, ?_, trivial, ⟨a, rfl⟩, ⟨b, rfl⟩⟩
    intro k x hx
    refine ⟨{}, hnode x ?_, fun _ => rfl⟩
    have hmem := mem_ownNodes hx
    exact hmem
  · have hnodup := h.nodup
    rw [hall] at hnodup
    -- The two new addresses are the only ones that are added.
    have hperm : (↑P + ↑C + ↑[a, b] + ∑ j ∈ univ.erase i, ↑(H j) : Multiset Nat) =
        a ::ₘ b ::ₘ (↑P + ↑C + ∑ j ∈ univ.erase i, ↑(H j)) := by
      rw [← Multiset.cons_coe, ← Multiset.cons_coe, Multiset.coe_nil]
      simp only [← Multiset.singleton_add]
      abel
    rw [hperm, Multiset.nodup_cons, Multiset.nodup_cons, Multiset.mem_cons, ← hall]
    refine ⟨not_or.mpr ⟨hab, fun hmem => hfresh ha hmem rfl⟩, fun hmem => hfresh hb hmem rfl, ?_⟩
    rw [hall]
    exact hnodup
  · intro x hx
    apply hsame
    rw [hall]
    exact Multiset.mem_add.mpr (.inr hx)
  · have hrest : requestsIn ((s.qsbr.setNode a (some {})).setNode b (some {})).nodes (↑P + ↑C) =
        requestsIn s.qsbr.nodes (↑P + ↑C) := by
      apply requestsIn_congr
      intro x hx
      apply hsame
      exact Multiset.mem_add.mpr (.inl hx)
    -- New list nodes hold no requests.
    have hempty : requestsIn ((s.qsbr.setNode a (some {})).setNode b (some {})).nodes ↑[a, b] =
        0 := by
      rw [← Multiset.cons_coe, ← Multiset.cons_coe, requestsIn_cons, requestsIn_cons, requestsAt,
        requestsAt, hnode a (by simp), hnode b (by simp)]
      rfl
    rw [hH, Multiset.coe_nil, add_zero, requestsIn_add _ ↑[a, b], hrest, hempty, add_zero]
    simp only [heldBy, QsbrPerThread.locals, QsbrPerThread.vectors, hpc, Pc.argument, Qsbr.setNode]

theorem step (h : s.Placed P C H) (hr : s.Rotating) {g : Epoch} {n p : Nat} (hc : s.Counts g n p)
    {e : ι × Action} {s' : QsbrSystem ι} (hstep : Step s e s') :
    ∃ P' C' H', s'.Placed P' C' H' := by
  obtain ⟨i, a⟩ := e
  obtain ⟨hallows, hact⟩ := hstep
  have hother : (s.threads i).pc.handling = true →
      ∀ j, j ≠ i → (s.threads j).pc.handling = false := by
    intro hi j hj
    by_contra hhandling
    exact hj (hr.handling_unique hc (Bool.not_eq_false _ ▸ hhandling) hi)
  have hidle : ∀ (pc : Pc), (s.threads i).pc = .idle → pc.plain = true → pc.argument = 0 →
      ∃ P' C' H', (s.setPc i pc).Placed P' C' H' := by
    intro pc hpc hplain harg
    have hquiet : Quiet s.qsbr (s.threads i) (s.qsbr, { s.threads i with pc }, .nothing) :=
      .setPc (by rw [hpc]; rfl) rfl (fun _ => rfl) rfl hplain harg (fun k => by cases k <;> rfl) rfl
    exact ⟨_, _, _, h.of_moves hother (hquiet.moves (h.toLocal i) (by rw [hpc]; rfl))⟩
  cases a with
  | register a b =>
    obtain ⟨hpc, -, hab, ha, hb⟩ := hallows
    cases hact
    exact ⟨_, _, _, h.register hpc hab ha hb⟩
  | deallocate pointer =>
    obtain ⟨hpc, -⟩ := hallows
    cases hact
    have hnodup := h.nodup
    rw [split P C H i] at hnodup
    have hthread : ThreadLists s.qsbr.nodes P
        { s.threads i with pc := .deallocateLoad pointer } (H i) :=
      (h.thread i).of_plain (by rw [hpc]; rfl) rfl fun k => by cases k <;> rfl
    refine ⟨P, C, Function.update H i (H i), h.update h.previous h.current hthread hnodup
      (fun _ _ => rfl) (fun _ _ => id) ?_⟩
    simp only [heldBy, QsbrPerThread.locals, QsbrPerThread.vectors, hpc, Pc.argument, setPc,
      ← Multiset.cons_coe, ← Multiset.singleton_add]
    abel
  | quiescent =>
    cases hact
    exact hidle .quiescentLoad hallows.1 rfl rfl
  | unregister =>
    cases hact
    exact hidle .unregisterLoad hallows.1 rfl rfl
  | go spurious =>
    simp only [act] at hact
    cases hres : s.qsbr.go (s.threads i) spurious with
    | error fault =>
      rw [hres] at hact
      cases hact
    | ok r =>
      obtain ⟨q, t, mark⟩ := r
      rw [hres] at hact
      cases hact
      obtain ⟨P', C', H', hmoves⟩ := go_moves (h.toLocal i) _ hres
      exact ⟨_, _, _, h.of_moves hother hmoves⟩

omit [DecidableEq ι] in
theorem init : ∃ P C H, (init : QsbrSystem ι).Placed P C H := by
  refine ⟨[], [], fun _ => [], .nil, .nil, fun i => ?_, ?_, ?_⟩
  · refine ⟨⟨[], .nil, rfl⟩, ?_, trivial, rfl, rfl⟩
    intro k a ha
    cases k <;> exact absurd ha (by simp [QsbrSystem.init, QsbrPerThread.orphanListNode])
  · simp
  · have hheld : ∀ i : ι, (QsbrSystem.init : QsbrSystem ι).heldBy i = 0 := fun _ => rfl
    simp only [hheld, sum_const_zero, Multiset.coe_nil, add_zero]
    rfl

theorem run (hι : Fintype.card ι < 2 ^ 30) {es : List (ι × Action)} {s' : QsbrSystem ι}
    (hrun : Run Step QsbrSystem.init es s') :
    s'.Rotating ∧ (∃ g n p, s'.Counts g n p) ∧ ∃ P C H, s'.Placed P C H := by
  refine hrun.invariant (I := fun s => s.Rotating ∧ (∃ g n p, s.Counts g n p) ∧
    ∃ P C H, s.Placed P C H) ?_ ⟨.init, ⟨0, 0, 0, .init⟩, init⟩
  rintro s e s' ⟨hr, ⟨g, n, p, hc⟩, P, C, H, h⟩ hstep
  obtain ⟨g', n', p', hc'⟩ := hc.step hι hstep
  exact ⟨hr.step hι hstep hc', ⟨g', n', p', hc'⟩, h.step hr hc hstep⟩

end Placed

/-! ## 3. Places -/

/-- Where a pointer can be: deallocated, in a vector of a thread, in a list node, or in a vector or
    an argument in the local variables of the running call of a thread. -/
inductive Place (ι : Type) where
  | deallocated
  | vector (i : ι) (k : Interval)
  | node (a : Nat)
  | locals (i : ι)
deriving DecidableEq

/-- The pointers in a place. -/
def Place.pointers (s : QsbrSystem ι) : Place ι → Multiset Nat
  | .deallocated => ↑s.qsbr.deallocated
  | .vector i k => pointersOf ((s.threads i).requests k)
  | .node a => requestsAt s.qsbr.nodes a
  | .locals i => (s.threads i).locals


section Places

variable [Fintype ι] [DecidableEq ι] {s : QsbrSystem ι} {P C : List Nat} {H : ι → List Nat}

/-- All places, with the given list nodes. -/
def places (m : Multiset Nat) : Finset (Place ι) :=
  {.deallocated} ∪ univ.image (Place.vector · .previous) ∪ univ.image (Place.vector · .current) ∪
    univ.image Place.locals ∪ m.toFinset.image Place.node

theorem sum_places {m : Multiset Nat} (hm : m.Nodup) (F : Place ι → Nat) :
    ∑ x ∈ places m, F x = F .deallocated + ∑ i, F (.vector i .previous) +
      ∑ i, F (.vector i .current) + ∑ i, F (.locals i) + (m.map fun a => F (.node a)).sum := by
  have hnodes : ∑ a ∈ m.toFinset, F (.node a) = (m.map fun a => F (.node a)).sum := by
    rw [Finset.sum, Multiset.toFinset_val, hm.dedup]
  unfold places
  rw [sum_union, sum_union, sum_union, sum_union, sum_singleton, sum_image, sum_image, sum_image,
    sum_image, hnodes]
  · exact fun a _ b _ h => Place.node.inj h
  · exact fun a _ b _ h => Place.locals.inj h
  · exact fun a _ b _ h => (Place.vector.inj h).1
  · exact fun a _ b _ h => (Place.vector.inj h).1
  · simp
  · simp [disjoint_left]
  · rw [disjoint_left]
    intro x hx
    cases x <;> simp at hx ⊢
  · rw [disjoint_left]
    intro x hx
    cases x <;> simp at hx ⊢

/-- The places hold as many copies of a pointer as were requested. -/
theorem Placed.count_eq (h : s.Placed P C H) (pointer : Nat) :
    ∑ x ∈ places (↑P + ↑C + ∑ i, ↑(H i)), (x.pointers s).count pointer =
      s.requested.count pointer := by
  rw [sum_places h.nodup, ← Multiset.coe_count, h.requests]
  simp only [Place.pointers, heldBy, QsbrPerThread.vectors, requestsIn, Multiset.count_add,
    Multiset.count_sum', Multiset.count_bind, sum_add_distrib, QsbrPerThread.requests]
  omega

/-- A requested pointer is in exactly one place. -/
theorem Placed.one_place (h : s.Placed P C H) {pointer : Nat}
    (hone : s.requested.count pointer = 1) :
    ∃ x ∈ places (↑P + ↑C + ∑ i, ↑(H i)), (x.pointers s).count pointer = 1 ∧
      ∀ y ∈ places (↑P + ↑C + ∑ i, ↑(H i)), y ≠ x → pointer ∉ y.pointers s := by
  have hsum := h.count_eq pointer
  rw [hone] at hsum
  obtain ⟨x, hx, hne⟩ := exists_ne_zero_of_sum_ne_zero (hsum.trans_ne Nat.one_ne_zero)
  rw [← add_sum_erase _ _ hx] at hsum
  have hx1 : (x.pointers s).count pointer = 1 := by omega
  refine ⟨x, hx, hx1, fun y hy hyx => ?_⟩
  have hzero : ∑ y ∈ (places (↑P + ↑C + ∑ i, ↑(H i))).erase x, (y.pointers s).count pointer = 0 := by
    omega
  have hy0 := (sum_eq_zero_iff.mp hzero) y (mem_erase.mpr ⟨hyx, hy⟩)
  exact Multiset.count_eq_zero.mp hy0

end Places

variable [Fintype ι] [DecidableEq ι]

/-- No step of a reachable state fails. -/
theorem act_ok (hι : Fintype.card ι < 2 ^ 30) {es : List (ι × Action)} {s : QsbrSystem ι}
    (hrun : Run Step init es s) (i : ι) (a : Action) : ∃ s', s.act i a = .ok s' := by
  obtain ⟨-, ⟨g, n, p, hc⟩, P, C, H, h⟩ := Placed.run hι hrun
  cases a with
  | go spurious =>
    have hgo := hc.stepOk hι i spurious
    cases hres : s.qsbr.go (s.threads i) spurious with
    | ok r => exact ⟨_, by simp only [act, hres]; rfl⟩
    | error fault =>
      rw [hres] at hgo
      obtain ⟨rfl, hfollows⟩ := hgo
      exact absurd hres (go_ne_badAccess (h.toLocal i) hfollows)
  | _ => exact ⟨_, rfl⟩

/-- In every reachable state the nodes of the orphan lists and of the lists and nodes that the
    threads hold are distinct, all places together hold each pointer as often as it was passed to
    `on_next_epoch_deallocate`, and a pointer that was passed once is in exactly one place. -/
theorem request_places (hι : Fintype.card ι < 2 ^ 30) {es : List (ι × Action)} {s : QsbrSystem ι}
    (hrun : Run Step init es s) :
    ∃ P C H, s.Placed P C H ∧ ∀ pointer,
      s.requested.count pointer =
        ∑ x ∈ places (↑P + ↑C + ∑ i, ↑(H i)), (x.pointers s).count pointer ∧
      (s.requested.count pointer = 1 → ∃ x ∈ places (↑P + ↑C + ∑ i, ↑(H i)),
        (x.pointers s).count pointer = 1 ∧
        ∀ y ∈ places (↑P + ↑C + ∑ i, ↑(H i)), y ≠ x → pointer ∉ y.pointers s) := by
  obtain ⟨-, -, P, C, H, h⟩ := Placed.run hι hrun
  exact ⟨P, C, H, h, fun pointer => ⟨(h.count_eq pointer).symm, h.one_place⟩⟩

/-- Of two threads one requests a deallocation and leaves: the pointer is then in a node of an
    orphan list. -/
theorem request_places_orphan :
    let es : List (Fin 2 × Action) := [(0, .register 0 1), (0, .go false), (0, .go false),
      (1, .register 2 3), (1, .go false), (1, .go false), (0, .deallocate 7), (0, .go false),
      (0, .unregister), (0, .go false), (0, .go false), (0, .go false), (0, .go false),
      (0, .go false)]
    ∃ s, Run Step init es s ∧ s.requested = [7] ∧ s.qsbr.orphanList .current = some 1 ∧
      ∃ P C H, s.Placed P C H ∧ ∃ x ∈ places (↑P + ↑C + ∑ i, ↑(H i)),
        (x.pointers s).count 7 = 1 ∧
        ∀ y ∈ places (↑P + ↑C + ∑ i, ↑(H i)), y ≠ x → 7 ∉ y.pointers s := by
  intro es
  obtain ⟨s, hrun, hrequested, horphan⟩ : ∃ s, Run Step init es s ∧ s.requested = [7] ∧
      s.qsbr.orphanList .current = some 1 :=
    ⟨_, .cons ⟨⟨rfl, rfl, by decide, rfl, rfl⟩, rfl⟩ (.cons ⟨trivial, rfl⟩ (.cons ⟨trivial, rfl⟩
      (.cons ⟨⟨rfl, rfl, by decide, rfl, rfl⟩, rfl⟩ (.cons ⟨trivial, rfl⟩ (.cons ⟨trivial, rfl⟩
      (.cons ⟨⟨rfl, rfl⟩, rfl⟩ (.cons ⟨trivial, rfl⟩ (.cons ⟨⟨rfl, rfl⟩, rfl⟩ (.cons ⟨trivial, rfl⟩
      (.cons ⟨trivial, rfl⟩ (.cons ⟨trivial, rfl⟩ (.cons ⟨trivial, rfl⟩ (.cons ⟨trivial, rfl⟩
      (.nil _)))))))))))))), rfl, rfl⟩
  obtain ⟨P, C, H, h, hplaces⟩ := request_places (by decide) hrun
  exact ⟨s, hrun, hrequested, horphan, P, C, H, h, (hplaces 7).2 (by rw [hrequested]; rfl)⟩

end QsbrSystem

end Unodb
