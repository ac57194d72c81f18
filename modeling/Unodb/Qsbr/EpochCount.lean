import Unodb.Qsbr.Threads
import Unodb.Util.Bump
import Unodb.Util.Outcome

/-!
# The epoch change count

`bump_epoch_change_count` loads the counter and stores the next value.  In `change_epoch` the thread
is still one that the new epoch waits for, so no other epoch change can come between the two; in
`unregister_thread` it has left already, and one can.
-/

open Finset

namespace Unodb

open QsbrState

/-- Where a call is in `bump_epoch_change_count`. -/
def Pc.phase : Pc → Phase
  | .changeBumpLoad .. | .unregisterBumpLoad .. => .due
  | .changeBumpStore _ _ count | .unregisterBumpStore _ _ count => .loaded count
  | _ => .idle

/-- The step was a compare-exchange that advanced the epoch. -/
def Mark.advancesEpoch : Mark → Bool
  | .advances _ => true
  | _ => false

/-! ## 1. What a step does to the counter -/

/-- The counter and the phase of the thread after a step. -/
def Bumps (q : Qsbr) (t : QsbrPerThread) (r : Qsbr.Result) : Prop :=
  Bump q.epochChangeCount t.pc.phase r.2.2.advancesEpoch r.1.epochChangeCount r.2.1.pc.phase

section Step

variable {q : Qsbr} {t : QsbrPerThread} {single spurious : Bool} {e : Epoch}

/-- A step outside `bump_epoch_change_count` that does not advance the epoch. -/
theorem Bumps.keep {q' : Qsbr} {t' : QsbrPerThread} {mark : Mark}
    (hcount : q'.epochChangeCount = q.epochChangeCount) (hphase : t'.pc.phase = t.pc.phase)
    (hmark : mark.advancesEpoch = false) : Bumps q t (q', t', mark) := by
  unfold Bumps
  rw [hcount, hphase, hmark]
  exact .keep _

theorem executePreviousRequests_pc (t : QsbrPerThread) (single : Bool) (e : Epoch)
    (rs : List DeallocationRequest) : (t.executePreviousRequests single e rs).pc = t.pc :=
  (execute_eq t single e rs).1

theorem quiescentFinish_pc :
    Ensures (t.quiescentFinish single e) fun t' => t'.pc = .idle := by
  unfold QsbrPerThread.quiescentFinish
  refine .bind_any fun _ => .ite (fun _ => .bind_any fun _ => .pure ?_) fun _ => .pure rfl
  exact executePreviousRequests_pc _ _ _ _

theorem registerCas_bumps {word : BitVec 64} (hidle : t.pc.phase = .idle) :
    Ensures (q.registerCas t word spurious) (Bumps q t) := by
  unfold Qsbr.registerCas
  refine .bind_any fun _ => .bind_any fun _ => .bind_any fun _ => .ite (fun _ => ?_) fun _ => ?_
  · refine .bind_any fun _ => .ite (fun _ => .pure ?_) fun _ => .pure ?_
    · exact .keep rfl hidle.symm rfl
    · exact .keep rfl hidle.symm rfl
  · refine .bind_any fun _ => .bind_any fun _ => .bind_any fun _ => .ite (fun _ => .pure ?_)
      fun _ => .pure ?_
    · exact .keep rfl hidle.symm rfl
    · exact .keep rfl hidle.symm rfl

theorem registerSpin_bumps (hidle : t.pc.phase = .idle) :
    Ensures (q.registerSpin t e) (Bumps q t) := by
  unfold Qsbr.registerSpin
  refine .bind_any fun _ => .ite (fun _ => .pure ?_) fun _ => .pure ?_
  · exact .keep rfl hidle.symm rfl
  · exact .keep rfl rfl rfl

theorem deallocateLoad_bumps {pointer : Nat} (hidle : t.pc.phase = .idle) :
    Ensures (q.deallocateLoad t pointer) (Bumps q t) := by
  unfold Qsbr.deallocateLoad
  refine .bind_any fun _ => .bind_any fun _ => .ite (fun _ => .bind_any fun _ => .pure ?_) fun _ =>
    .ite (fun _ => .bind_any fun _ => .bind_any fun _ => .pure ?_) fun _ => .pure ?_
  · exact .keep rfl hidle.symm rfl
  · exact .keep rfl hidle.symm rfl
  · exact .keep rfl hidle.symm rfl

theorem quiescentLoad_bumps (hidle : t.pc.phase = .idle) :
    Ensures (q.quiescentLoad t) (Bumps q t) := by
  -- After the fields of the thread are up to date, either way.
  have hrest : ∀ (e : Epoch) (single : Bool) (t₂ : QsbrPerThread), Ensures (do
      assertThat (e = t₂.lastSeenQuiescentStateEpoch)
      if t₂.quiescentStatesSinceEpochChange = 0 then
        return (q, { t₂ with pc := .removeFetchSub e single }, .nothing)
      else
        return (q, { t₂ with
          quiescentStatesSinceEpochChange := t₂.quiescentStatesSinceEpochChange + 1, pc := .idle },
          .nothing)) (Bumps q t) := by
    intro e single t₂
    refine .bind_any fun _ => .ite (fun _ => .pure ?_) fun _ => .pure ?_
    · exact .keep rfl hidle.symm rfl
    · exact .keep rfl hidle.symm rfl
  unfold Qsbr.quiescentLoad
  exact .bind_any fun _ => .bind_any fun _ => .bind_any fun _ =>
    .ite (fun _ => .bind_any fun _ => .bind_any fun _ => hrest _ _ _)
      fun _ => .bind_any fun _ => hrest _ _ _

theorem removeFetchSub_bumps (hidle : t.pc.phase = .idle) :
    Ensures (q.removeFetchSub t e single) (Bumps q t) := by
  unfold Qsbr.removeFetchSub
  refine .bind_any fun _ => .bind_any fun _ => .bind_any fun _ => .bind_any fun _ =>
    .bind_any fun _ => .bind_any fun _ => .bind_any fun _ => .bind_any fun _ =>
    .ite (fun _ => .bind quiescentFinish_pc fun t' hpc => .pure ?_) fun _ => .pure ?_
  · exact .keep rfl (by rw [hpc, hidle]; rfl) rfl
  · exact .keep rfl hidle.symm rfl

theorem freeListNode_bumps {i : Nat} {pc : Option Nat → Pc} (hidle : t.pc.phase = .idle)
    (hpc : ∀ next, (pc next).phase = .idle) : Ensures (q.freeListNode t i pc) (Bumps q t) := by
  unfold Qsbr.freeListNode
  exact .bind_any fun _ => .pure (.keep rfl ((hpc _).trans hidle.symm) rfl)

theorem handleOrphans_bumps {stage : HandleOrphans} {caller : Caller}
    (hidle : t.pc.phase = .idle) :
    Ensures (q.handleOrphans t stage single caller) (Bumps q t) := by
  have hnext : caller.next.phase = .idle := by cases caller <;> rfl
  unfold Qsbr.handleOrphans
  cases stage with
  | takePrevious | takeCurrent => exact .ok (.keep rfl hidle.symm rfl)
  | freePrevious list current =>
    cases list with
    | none =>
      refine .ok (.keep rfl ?_ rfl)
      cases single <;> exact hidle.symm
    | some i => exact freeListNode_bumps hidle fun _ => rfl
  | attach current =>
    dsimp only
    cases q.orphanList .previous with
    | none => exact .ok (.keep rfl (hnext.trans hidle.symm) rfl)
    | some i => exact .ok (.keep rfl hidle.symm rfl)
  | walk previous current =>
    refine .bind_any fun node => ?_
    cases node.next with
    | none => exact .pure (.keep rfl hidle.symm rfl)
    | some i => exact .pure (.keep rfl hidle.symm rfl)
  | append previous current =>
    exact .bind_any fun _ => .pure (.keep rfl (hnext.trans hidle.symm) rfl)
  | freeCurrent list =>
    cases list with
    | none => exact .ok (.keep rfl (hnext.trans hidle.symm) rfl)
    | some i => exact freeListNode_bumps hidle fun _ => rfl

theorem changeCas_bumps {word : BitVec 64} (hidle : t.pc.phase = .idle) :
    Ensures (q.changeCas t e single word spurious) (Bumps q t) := by
  unfold Qsbr.changeCas
  refine .bind_any fun _ => .bind_any fun _ => .bind_any fun _ => .ite (fun _ => ?_)
    fun _ => .pure ?_
  · refine .bind_any fun _ => .bind_any fun _ => .pure ?_
    unfold Bumps
    rw [hidle]
    exact .begin
  · exact .keep rfl hidle.symm rfl

theorem unregisterTry_bumps {word : BitVec 64} {prepared : Bool} (hidle : t.pc.phase = .idle) :
    Ensures (q.unregisterTry t word prepared spurious) (Bumps q t) := by
  have hretry : Bumps q t (q, { t with pc := .unregisterTry q.state prepared }, .nothing) :=
    .keep rfl hidle.symm rfl
  -- After the new state has been computed, either way.
  have hrest : ∀ {c c' c'' : Prop} [Decidable c] [Decidable c'] [Decidable c''] (single : Bool)
      (e : Epoch) (caller : Caller) (newState : BitVec 64),
      Ensures (if c then pure (q, { t with pc := .handleOrphans .takePrevious single caller },
          .nothing)
        else if c' then do
          let t ← t.advanceLastSeenEpoch single e []
          if c'' then
            return ({ q with state := newState },
              { t with pc := .unregisterBumpLoad e single }, .advances true)
          else
            return ({ q with state := newState }, { t with pc := .orphanLoad .previous }, .leaves)
        else pure (q, { t with pc := .unregisterTry q.state prepared }, .nothing) :
          Except Fault Qsbr.Result) (Bumps q t) := by
    intro c c' c'' _ _ _ single e caller newState
    refine .ite (fun _ => .pure ?_) fun _ => .ite (fun _ => .bind_any fun _ => ?_)
      fun _ => .pure hretry
    · exact .keep rfl hidle.symm rfl
    · refine .ite (fun _ => .pure ?_) fun _ => .pure ?_
      · unfold Bumps
        rw [hidle]
        exact .begin
      · exact .keep rfl hidle.symm rfl
  unfold Qsbr.unregisterTry
  refine .bind_any fun _ => .ite (fun _ => ?_) fun _ => ?_
  · refine .bind_any fun _ => .bind_any fun _ => .bind_any fun _ => .ite (fun _ => .pure ?_)
      fun _ => .pure hretry
    exact .keep rfl hidle.symm rfl
  · exact .bind_any fun _ => .bind_any fun _ =>
      .ite (fun _ => .bind_any fun _ => hrest _ _ _ _) fun _ => .bind_any fun _ => hrest _ _ _ _

theorem afterOrphan_bumps {q' : Qsbr} {t' : QsbrPerThread} (list : Interval)
    (hcount : q'.epochChangeCount = q.epochChangeCount) (hidle : t.pc.phase = .idle) :
    Ensures (do return (q', ← t'.afterOrphan list, .nothing) : Except Fault Qsbr.Result)
      (Bumps q t) := by
  cases list with
  | previous => exact .pure (.keep hcount hidle.symm rfl)
  | current =>
    refine .bind (Q := fun t' => t'.pc = .paused) ?_ fun t' hpc =>
      .pure (.keep hcount (by rw [hpc, hidle]; rfl) rfl)
    exact .bind_any fun _ => .bind_any fun _ => .pure rfl

theorem orphanLoad_bumps {list : Interval} (hidle : t.pc.phase = .idle) :
    Ensures (q.orphanLoad t list) (Bumps q t) := by
  unfold Qsbr.orphanLoad
  cases t.orphanListNode list with
  | none => exact .error
  | some i =>
    refine .ite (fun _ => afterOrphan_bumps list rfl hidle) fun _ => .pure ?_
    refine .keep rfl ?_ rfl
    exact hidle.symm

theorem orphanCas_bumps {list : Interval} (hidle : t.pc.phase = .idle) :
    Ensures (q.orphanCas t list spurious) (Bumps q t) := by
  unfold Qsbr.orphanCas
  cases t.orphanListNode list with
  | none => exact .error
  | some i =>
    refine .bind_any fun node => .ite (fun _ => ?_) fun _ => .pure (.keep rfl rfl rfl)
    refine afterOrphan_bumps list ?_ hidle
    cases list <;> rfl

/-- Every step of a running call keeps the counter, makes a bump due, loads or stores. -/
theorem go_bumps : Ensures (q.go t spurious) (Bumps q t) := by
  unfold Qsbr.go
  split
  · exact .bind_any fun _ => .pure (.keep rfl rfl rfl)
  · have hphase : ∀ pc, t.pc = pc → t.pc.phase = pc.phase := fun _ h => congrArg Pc.phase h
    cases hpc : t.pc with
    | paused | idle => exact .ok (.keep rfl rfl rfl)
    | registerLoad | changeLoad | unregisterLoad => exact .ok (.keep rfl (hphase _ hpc).symm rfl)
    | registerCas word => exact registerCas_bumps (hphase _ hpc)
    | registerSpin e => exact registerSpin_bumps (hphase _ hpc)
    | deallocateLoad pointer => exact deallocateLoad_bumps (hphase _ hpc)
    | quiescentLoad => exact quiescentLoad_bumps (hphase _ hpc)
    | removeFetchSub e single => exact removeFetchSub_bumps (hphase _ hpc)
    | handleOrphans stage single caller => exact handleOrphans_bumps (hphase _ hpc)
    | changeCas e single word => exact changeCas_bumps (hphase _ hpc)
    | unregisterTry word prepared => exact unregisterTry_bumps (hphase _ hpc)
    | changeBumpLoad e single | unregisterBumpLoad e single =>
      refine .ok ?_
      unfold Bumps
      rw [hphase _ hpc]
      exact .load
    | changeBumpStore e single count =>
      refine .bind quiescentFinish_pc fun t' hpc' => .pure ?_
      unfold Bumps
      rw [hphase _ hpc, show t'.pc.phase = .idle from congrArg Pc.phase hpc']
      exact .store count
    | unregisterBumpStore e single count =>
      refine .ok ?_
      unfold Bumps
      rw [hphase _ hpc]
      exact .store count
    | orphanLoad list => exact orphanLoad_bumps (hphase _ hpc)
    | orphanCas list => exact orphanCas_bumps (hphase _ hpc)

/-- With the deallocations of the call done, a call that has loaded the counter stores it. -/
theorem go_store {count : Nat} (hdeferred : t.deferred = []) (hloaded : t.pc.phase = .loaded count) :
    Ensures (q.go t spurious) fun r => r.2.1.pc.phase = .idle := by
  unfold Qsbr.go
  rw [hdeferred]
  cases hpc : t.pc with
  | changeBumpStore e single count =>
    exact .bind quiescentFinish_pc fun t' hpc' => .pure (congrArg Pc.phase hpc')
  | unregisterBumpStore e single count => exact .ok rfl
  | _ =>
    rw [hpc] at hloaded
    cases hloaded

theorem go_deferred (hdeferred : t.deferred ≠ []) :
    Ensures (q.go t spurious) fun r => r.2.1.pc = t.pc := by
  unfold Qsbr.go
  split
  · exact .bind_any fun _ => .pure rfl
  · rename_i hnil
    exact absurd hnil hdeferred

end Step

/-! ## 2. Runs -/

namespace QsbrSystem

variable {ι : Type} [DecidableEq ι]

/-- The number of steps in a run at which the epoch in the state word advances. -/
def epochAdvances : QsbrSystem ι → List (ι × Action) → Nat
  | _, [] => 0
  | s, e :: es =>
    match s.act e.1 e.2 with
    | .ok s' => (if doGetEpoch s'.qsbr.state ≠ doGetEpoch s.qsbr.state then 1 else 0) +
        epochAdvances s' es
    | .error _ => 0

/-- No call is running. -/
def AtRest (s : QsbrSystem ι) : Prop :=
  ∀ i, ((s.threads i).pc = .paused ∨ (s.threads i).pc = .idle) ∧ (s.threads i).deferred = []

/-- The next step of the thread stores the counter. -/
def Storing (s : QsbrSystem ι) (i : ι) : Prop :=
  (s.threads i).deferred = [] ∧ ∃ count, (s.threads i).pc.phase = .loaded count

/-- If a step stores the counter, no other thread has loaded it for its own store. -/
def StoresAlone (s : QsbrSystem ι) (e : ι × Action) : Prop :=
  (∃ spurious, e.2 = .go spurious) → s.Storing e.1 →
    ∀ j ≠ e.1, ∀ count, (s.threads j).pc.phase ≠ .loaded count

/-- A step at which no bump of the counter is lost. -/
def AloneStep (s : QsbrSystem ι) (e : ι × Action) (s' : QsbrSystem ι) : Prop :=
  Step s e s' ∧ s.StoresAlone e

/-- The epoch change counter with the calls that bump it. -/
def counter (s : QsbrSystem ι) : Counter ι where
  value := s.qsbr.epochChangeCount
  phase i := (s.threads i).pc.phase

variable {s s' : QsbrSystem ι} {e : ι × Action} {g : Epoch} {n p : Nat}

theorem counter_update (i : ι) (t : QsbrPerThread) :
    (fun j => (Function.update s.threads i t j).pc.phase) =
      Function.update s.counter.phase i t.pc.phase :=
  funext fun j => Function.apply_update (fun _ (t : QsbrPerThread) => t.pc.phase) s.threads i t j

/-- The epoch advances at the steps that are marked so. -/
theorem Counts.advancesEpoch [Fintype ι] (h : s.Counts g n p) (hι : Fintype.card ι < 2 ^ 30) {i : ι}
    {spurious : Bool} {q : Qsbr} {t : QsbrPerThread} {mark : Mark}
    (hgo : s.qsbr.go (s.threads i) spurious = .ok (q, t, mark)) :
    decide (doGetEpoch q.state ≠ doGetEpoch s.qsbr.state) = mark.advancesEpoch := by
  have hok := h.stepOk hι i spurious
  rw [hgo] at hok
  obtain ⟨g', n', p', hfields, h'⟩ := h.effect hok.1 hok.2
  have hold : doGetEpoch s.qsbr.state = g := congrArg Prod.fst (h.fields_eq hι)
  have hnew : doGetEpoch q.state = g' := congrArg Prod.fst (h'.fields_eq hι)
  rw [hold, hnew]
  cases mark with
  | advances leaves =>
    obtain rfl : g.advance 1 = g' := congrArg Prod.fst hfields
    exact decide_eq_true (Epoch.advance_ne g)
  | _ =>
    obtain rfl : g = g' := congrArg Prod.fst hfields
    exact decide_eq_false (not_not.mpr rfl)

/-- A step of the system is a step of the counter, which makes a bump due if the epoch advances. -/
theorem Counts.bump [Fintype ι] (h : s.Counts g n p) (hι : Fintype.card ι < 2 ^ 30)
    (hstep : Step s e s') : ∃ ph,
      Bump s.counter.value (s.counter.phase e.1)
        (decide (doGetEpoch s'.qsbr.state ≠ doGetEpoch s.qsbr.state)) s'.counter.value ph ∧
      s'.counter = s.counter.update e.1 s'.counter.value ph ∧
      (s.StoresAlone e ↔ s.counter.StoresAlone e.1 ph) := by
  obtain ⟨i, a⟩ := e
  obtain ⟨hallows, hact⟩ := hstep
  -- The first step of a call starts from a point outside `bump_epoch_change_count`.
  have hstart : ∀ (q : Qsbr) {t : QsbrPerThread} (_ : q.state = s.qsbr.state)
      (_ : q.epochChangeCount = s.qsbr.epochChangeCount) (_ : (s.threads i).pc.phase = .idle)
      (_ : t.pc.phase = .idle) (_ : s'.qsbr = q) (_ : s'.threads = Function.update s.threads i t)
      (_ : ∀ spurious, a ≠ .go spurious), ∃ ph,
        Bump s.counter.value (s.counter.phase i)
          (decide (doGetEpoch s'.qsbr.state ≠ doGetEpoch s.qsbr.state)) s'.counter.value ph ∧
        s'.counter = s.counter.update i s'.counter.value ph ∧
        (s.StoresAlone (i, a) ↔ s.counter.StoresAlone i ph) := by
    intro q t hstate hcount hidle hidle' hq ht hgo
    refine ⟨.idle, ?_, ?_, ?_⟩
    · show Bump s.qsbr.epochChangeCount (s.threads i).pc.phase _ s'.qsbr.epochChangeCount .idle
      rw [hq, hstate, hcount, hidle, decide_eq_false (not_not.mpr rfl)]
      exact .keep _
    · rw [← hidle', Counter.update, ← counter_update i t, ← ht]
      rfl
    · refine iff_of_true (fun ⟨spurious, heq⟩ => absurd heq (hgo spurious)) fun v hv => ?_
      rw [show s.counter.phase i = .idle from hidle] at hv
      cases hv
  cases a with
  | register a b =>
    cases hact
    exact hstart ((s.qsbr.setNode a (some {})).setNode b (some {})) rfl rfl
      (congrArg Pc.phase hallows.1) rfl rfl rfl (by simp)
  | deallocate pointer =>
    cases hact
    exact hstart s.qsbr rfl rfl (congrArg Pc.phase hallows.1) rfl rfl rfl (by simp)
  | quiescent | unregister =>
    cases hact
    exact hstart s.qsbr rfl rfl (congrArg Pc.phase hallows.1) rfl rfl rfl (by simp)
  | go spurious =>
    cases hgo : s.qsbr.go (s.threads i) spurious with
    | error fault =>
      rw [act, hgo] at hact
      cases hact
    | ok r =>
      obtain ⟨q, t, mark⟩ := r
      rw [act, hgo] at hact
      cases hact
      have hbump := go_bumps _ hgo
      refine ⟨t.pc.phase, ?_, ?_, ?_⟩
      · show Bump s.qsbr.epochChangeCount (s.threads i).pc.phase _ q.epochChangeCount t.pc.phase
        rw [show doGetEpoch _ = doGetEpoch q.state from rfl, h.advancesEpoch hι hgo]
        exact hbump
      · rw [Counter.update, ← counter_update i t]
        rfl
      · constructor
        · intro halone v hv hidle
          refine halone ⟨spurious, rfl⟩ ⟨?_, v, hv⟩
          by_contra hdeferred
          rw [go_deferred hdeferred _ hgo] at hidle
          exact absurd (hidle.symm.trans hv) (by simp)
        · rintro halone - ⟨hdeferred, v, hv⟩
          exact halone v hv (go_store hdeferred hv _ hgo)

/-- Counting the steps at which the epoch advances. -/
theorem epochAdvances_cons {es : List (ι × Action)} (hstep : Step s e s') :
    s.epochAdvances (e :: es) =
      (decide (doGetEpoch s'.qsbr.state ≠ doGetEpoch s.qsbr.state)).toNat + s'.epochAdvances es := by
  rw [epochAdvances, hstep.2]
  dsimp only
  congr 1
  by_cases h : doGetEpoch s'.qsbr.state ≠ doGetEpoch s.qsbr.state
  · rw [if_pos h, decide_eq_true h]
    rfl
  · rw [if_neg h, decide_eq_false h]
    rfl

section Run

variable [Fintype ι] (hι : Fintype.card ι < 2 ^ 30) {es : List (ι × Action)} {m : Nat}
include hι

/-- As long as every store is alone, the counter is exact. -/
theorem Counts.run_exact (h : s.Counts g n p) (hexact : s.counter.Exact m)
    (hrun : Run AloneStep s es s') : s'.counter.Exact (m + s.epochAdvances es) := by
  induction hrun generalizing g n p m with
  | nil => exact hexact
  | cons he _ ih =>
    obtain ⟨ph, hbump, hcounter, halone⟩ := h.bump hι he.1
    obtain ⟨g', n', p', h'⟩ := h.step hι he.1
    rw [epochAdvances_cons he.1, ← add_assoc]
    refine ih h' ?_
    rw [hcounter]
    exact hexact.step hbump (halone.mp he.2)

/-- Once the counter is short, it stays short. -/
theorem Counts.run_short (h : s.Counts g n p) (hshort : s.counter.Short m)
    (hrun : Run Step s es s') : s'.counter.Short (m + s.epochAdvances es) := by
  induction hrun generalizing g n p m with
  | nil => exact hshort
  | cons he _ ih =>
    obtain ⟨ph, hbump, hcounter, -⟩ := h.bump hι he
    obtain ⟨g', n', p', h'⟩ := h.step hι he
    rw [epochAdvances_cons he, ← add_assoc]
    refine ih h' ?_
    rw [hcounter]
    exact hshort.step hbump

/-- A run with a store that is not alone leaves the counter short. -/
theorem Counts.run_cases (h : s.Counts g n p) (hexact : s.counter.Exact m)
    (hrun : Run Step s es s') :
    Run AloneStep s es s' ∨ s'.counter.Short (m + s.epochAdvances es) := by
  induction hrun generalizing g n p m with
  | nil s => exact .inl (.nil s)
  | @cons s s₁ s' e es he hrest ih =>
    obtain ⟨ph, hbump, hcounter, halone⟩ := h.bump hι he
    obtain ⟨g', n', p', h'⟩ := h.step hι he
    rw [epochAdvances_cons he, ← add_assoc]
    by_cases hstore : s.StoresAlone e
    · have hexact' := hexact.step hbump (halone.mp hstore)
      rw [← hcounter] at hexact'
      exact (ih h' hexact').imp_left fun hrun => .cons ⟨he, hstore⟩ hrun
    · have hshort := hexact.short hbump fun hc => hstore (halone.mpr hc)
      rw [← hcounter] at hshort
      exact .inr (h'.run_short hι hshort hrest)

end Run

omit [DecidableEq ι] in
theorem init_exact [Fintype ι] : (init : QsbrSystem ι).counter.Exact 0 where
  loaded := by
    intro i v hi
    cases hi
  total := by
    simp [counter, init, Pc.phase, Phase.isDue, Phase.isLoaded]

omit [DecidableEq ι] in
theorem AtRest.phase (h : s.AtRest) (i : ι) : s.counter.phase i = .idle := by
  show (s.threads i).pc.phase = .idle
  rcases (h i).1 with hpc | hpc
  · rw [hpc]
    rfl
  · rw [hpc]
    rfl

/-- With no call in progress the counter is the number of epoch changes exactly if no thread has
    stored it while another one had loaded it, and in runs of that kind it never decreases. -/
theorem epoch_change_count_iff [Fintype ι] (hι : Fintype.card ι < 2 ^ 30) {es : List (ι × Action)}
    (hrun : Run Step init es s) :
    (s.AtRest → (s.qsbr.epochChangeCount = init.epochAdvances es ↔ Run AloneStep init es s)) ∧
      (Run AloneStep init es s → ∀ {e s'}, AloneStep s e s' →
        s.qsbr.epochChangeCount ≤ s'.qsbr.epochChangeCount) := by
  constructor
  · intro hrest
    rcases Counts.init.run_cases hι init_exact hrun with halone | hshort
    · have hexact := Counts.init.run_exact hι init_exact halone
      refine iff_of_true ((hexact.value_eq hrest.phase).trans (Nat.zero_add _)) halone
    · have hlt := hshort.value_lt
      rw [Nat.zero_add] at hlt
      refine iff_of_false (Nat.ne_of_lt hlt) fun halone => ?_
      have hexact := Counts.init.run_exact hι init_exact halone
      exact absurd ((hexact.value_eq hrest.phase).trans (Nat.zero_add _)) (Nat.ne_of_lt hlt)
  · intro halone e s' hstep
    obtain ⟨g, n, p, h⟩ := Counts.run hι hrun
    obtain ⟨ph, hbump, -, -⟩ := h.bump hι hstep.1
    exact (Counts.init.run_exact hι init_exact halone).value_le hbump

/-! ## 3. Two threads -/

instance (s : QsbrSystem ι) (i : ι) (a : Action) : Decidable (s.Allows i a) := by
  cases a <;> unfold Allows <;> infer_instance

instance [Fintype ι] (s : QsbrSystem ι) : Decidable s.AtRest := by
  unfold AtRest
  infer_instance

/-- Take the given steps, if they are allowed. -/
def execute (s : QsbrSystem ι) : List (ι × Action) → Option (QsbrSystem ι)
  | [] => some s
  | e :: es =>
    if s.Allows e.1 e.2 then
      match s.act e.1 e.2 with
      | .ok s' => execute s' es
      | .error _ => none
    else none

theorem run_of_execute {es : List (ι × Action)} (h : s.execute es = some s') : Run Step s es s' := by
  induction es generalizing s with
  | nil =>
    cases h
    exact .nil _
  | cons e es ih =>
    rw [execute] at h
    split at h
    · rename_i hallows
      split at h
      · rename_i s₁ hact
        exact .cons ⟨hallows, hact⟩ (ih h)
      · cases h
    · cases h

theorem exists_run {es : List (ι × Action)} {P : QsbrSystem ι → Prop} [DecidablePred P]
    (h : (s.execute es).any (fun s' => P s') = true) : ∃ s', Run Step s es s' ∧ P s' := by
  cases hrun : s.execute es with
  | none =>
    rw [hrun] at h
    cases h
  | some s' =>
    rw [hrun] at h
    exact ⟨s', run_of_execute hrun, of_decide_eq_true h⟩

/-- Two threads register, the second one passes through a quiescent state, and the first one leaves
    and so advances the epoch; it takes `k` steps for that. -/
def leaving (k : Nat) : List (Fin 2 × Action) :=
  [(0, .register 0 1), (0, .go false), (0, .go false), (1, .register 2 3), (1, .go false),
    (1, .go false), (1, .quiescent), (1, .go false), (1, .go false), (0, .unregister)] ++
    List.replicate k (0, .go false)

/-- The second thread advances the epoch once more. -/
def advancing : List (Fin 2 × Action) := (1, .quiescent) :: List.replicate 10 (1, .go false)

/-- The first thread leaves and stores the counter before the second one advances the epoch. -/
theorem epoch_change_count_iff_leaving : ∃ s,
    Run Step init (leaving 11 ++ advancing) s ∧ s.AtRest ∧ s.qsbr.epochChangeCount = 2 ∧
      Run AloneStep init (leaving 11 ++ advancing) s := by
  obtain ⟨s, hrun, hrest, hcount, hadvances⟩ : ∃ s, Run Step init (leaving 11 ++ advancing) s ∧
      s.AtRest ∧ s.qsbr.epochChangeCount = 2 ∧ init.epochAdvances (leaving 11 ++ advancing) = 2 :=
    exists_run (by decide +kernel)
  refine ⟨s, hrun, hrest, hcount, ?_⟩
  exact ((epoch_change_count_iff (by decide) hrun).1 hrest).mp (hcount.trans hadvances.symm)

/-- The first thread has loaded the counter when the second one advances the epoch, and stores it
    afterwards: of two epoch changes one is counted. -/
theorem epoch_change_count_lost : ∃ es, ∃ s : QsbrSystem (Fin 2), Run Step init es s ∧ s.AtRest ∧
    s.qsbr.epochChangeCount = 1 ∧ init.epochAdvances es = 2 :=
  ⟨leaving 8 ++ advancing ++ List.replicate 3 (0, .go false), exists_run (by decide +kernel)⟩

end QsbrSystem

end Unodb
