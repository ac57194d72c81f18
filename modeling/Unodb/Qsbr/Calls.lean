import Unodb.Qsbr.Grace
import Unodb.Qsbr.EpochCount

/-!
# How a running call goes on

Where a step leads to, as far as the threads that wait, the orphan lists and single thread mode
depend on it.
-/

namespace Unodb

open QsbrState

/-- What a step does to the running call of a thread. -/
structure CallStep (q : Qsbr) (t : QsbrPerThread) (spurious : Bool) (r : Qsbr.Result) : Prop where
  deallocated : q.deallocated <:+ r.1.deallocated
  reading : t.pc.reading = true → r.2.2 = .nothing ∧ (r.2.1.pc.reading = true ∨
    t.deferred = [] ∧ (t.pc = .quiescentLoad ∨ t.pc = .unregisterLoad))
  rotated : t.pc.rotated = true →
    r.2.1.pc.rotated = true ∨ r.2.2.advancing = true ∨ r.2.2 = .leaves
  single : ∀ stage caller, r.2.1.pc = .handleOrphans stage true caller →
    (∃ stage', t.pc = .handleOrphans stage' true caller) ∨ doGetThreadCount q.state < 2 ∨
      ∃ word, caller = .unregisterThread word ∧ doGetThreadCount word < 2
  prepared : ∀ word, r.2.1.pc = .unregisterTry word true → (∃ word', t.pc = .unregisterTry word' true) ∨
    ∃ stage single word', t.pc = .handleOrphans stage single (.unregisterThread word')
  unmarked : r.2.1.pc.handling = true ∨ r.2.1.pc.loaded ≠ none ∨ r.2.1.pc.rotated = true →
    r.2.2 = .nothing ∨ r.2.2 = .passes ∧ r.2.1.pc.loaded = none ∧ r.2.1.pc.rotated = false
  spin : ∀ e, t.pc = .registerSpin e → doGetEpoch q.state = e → r.2.1.pc = .registerSpin e
  registers : ∀ b, r.2.2 = .joins b → t.deferred = [] ∧ t.pc = .registerCas q.state ∧ spurious = false

section CallStep

variable {q q' : Qsbr} {t t' : QsbrPerThread} {spurious : Bool} {mark : Mark} {e : Epoch}
  {single : Bool}

/-- The call stays where it is. -/
theorem CallStep.of_pc_eq (hd : q.deallocated <:+ q'.deallocated) (hpc : t'.pc = t.pc) :
    CallStep q t spurious (q', t', .nothing) where
  deallocated := hd
  reading h := ⟨rfl, .inl (hpc ▸ h)⟩
  rotated h := .inl (hpc ▸ h)
  single stage _ h := .inl ⟨stage, hpc ▸ h⟩
  prepared word h := .inl ⟨word, hpc ▸ h⟩
  unmarked _ := .inl rfl
  spin _ h _ := hpc.trans h
  registers _ h := by cases h

/-- From a point where little is kept track of to another one. -/
theorem CallStep.to (hd : q'.deallocated = q.deallocated)
    (hsource : t.pc.reading = false ∧ t.pc.rotated = false ∧ ∀ e, t.pc ≠ .registerSpin e)
    (htarget : t'.pc.handling = false ∧ t'.pc.rotated = false ∧ t'.pc.loaded = none)
    (hmark : ∀ b, mark ≠ .joins b) : CallStep q t spurious (q', t', mark) where
  deallocated := hd ▸ List.suffix_rfl
  reading h := absurd (hsource.1.symm.trans h) Bool.false_ne_true
  rotated h := absurd (hsource.2.1.symm.trans h) Bool.false_ne_true
  single stage caller h := by
    rw [h] at htarget
    exact absurd htarget.1 Bool.noConfusion
  prepared word h := by
    rw [h] at htarget
    exact absurd htarget.2.1 Bool.noConfusion
  unmarked h := by
    rw [htarget.1, htarget.2.1, htarget.2.2] at h
    simp at h
  spin e h := absurd h (hsource.2.2 e)
  registers b h := absurd h (hmark b)

/-- From a registered thread outside of `quiescent`. -/
theorem CallStep.of_reading (hd : q'.deallocated = q.deallocated) (hsource : t.pc.reading = true)
    (htarget : t'.pc.reading = true ∨ t.deferred = [] ∧ (t.pc = .quiescentLoad ∨ t.pc = .unregisterLoad))
    (hhandling : t'.pc.handling = false) (hrotated : t'.pc.rotated = false) :
    CallStep q t spurious (q', t', .nothing) where
  deallocated := hd ▸ List.suffix_rfl
  reading _ := ⟨rfl, htarget⟩
  rotated h := by
    cases hpc : t.pc <;> rw [hpc] at h hsource <;> first
      | exact absurd h Bool.false_ne_true
      | exact absurd hsource Bool.false_ne_true
  single stage caller h := by
    rw [h] at hhandling
    exact absurd hhandling Bool.noConfusion
  prepared word h := by
    rw [h] at hrotated
    exact absurd hrotated Bool.noConfusion
  unmarked _ := .inl rfl
  spin e h := by
    rw [h] at hsource
    exact absurd hsource Bool.false_ne_true
  registers b h := by cases h

theorem registerCas_callStep {word : BitVec 64} (hpc : t.pc = .registerCas word) (hd : t.deferred = []) :
    Ensures (q.registerCas t word spurious) (CallStep q t spurious) := by
  have hsource : t.pc.reading = false ∧ t.pc.rotated = false ∧ ∀ e, t.pc ≠ .registerSpin e := by
    simp [hpc, Pc.reading, Pc.rotated]
  have hretry : CallStep q t spurious (q, { t with pc := .registerCas q.state }, .nothing) :=
    .to rfl hsource ⟨rfl, rfl, rfl⟩ (by simp)
  -- The thread is counted: the exchange has not failed spuriously.
  have hjoins : ∀ {q' : Qsbr} {t' : QsbrPerThread} {b : Bool}, q'.deallocated = q.deallocated →
      t'.pc.handling = false ∧ t'.pc.rotated = false ∧ t'.pc.loaded = none →
      q.state = word ∧ (!spurious) = true → CallStep q t spurious (q', t', .joins b) := by
    intro q' t' b hq' htarget hcas
    have hto : CallStep q t spurious (q', t', .nothing) := .to hq' hsource htarget (by simp)
    refine { hto with
      reading := fun h => absurd (hsource.1.symm.trans h) Bool.false_ne_true
      rotated := fun h => absurd (hsource.2.1.symm.trans h) Bool.false_ne_true
      unmarked := fun h => ?_
      registers := fun _ _ => ⟨hd, by rw [hpc, hcas.1], by simpa using hcas.2⟩ }
    rw [htarget.1, htarget.2.1, htarget.2.2] at h
    simp at h
  unfold Qsbr.registerCas
  refine .bind_any fun _ => .bind_any fun _ => .bind_any fun _ => .ite (fun _ => ?_) fun _ => ?_
  · exact .bind_any fun _ => .ite (fun hcas => .pure (hjoins rfl ⟨rfl, rfl, rfl⟩ hcas))
      fun _ => .pure hretry
  · exact .bind_any fun _ => .bind_any fun _ => .bind_any fun _ =>
      .ite (fun hcas => .pure (hjoins rfl ⟨rfl, rfl, rfl⟩ hcas)) fun _ => .pure hretry

theorem registerSpin_callStep (hpc : t.pc = .registerSpin e) :
    Ensures (q.registerSpin t e) (CallStep q t spurious) := by
  unfold Qsbr.registerSpin
  refine .bind (getEpoch_ensures q.state) ?_
  rintro _ rfl
  refine .ite (fun hne => .pure ⟨List.suffix_rfl, ?_, ?_, ?_, ?_, ?_, ?_, ?_⟩)
    fun _ => .pure (.of_pc_eq List.suffix_rfl rfl)
  · simp [hpc, Pc.reading]
  · simp [hpc, Pc.rotated]
  · simp [QsbrPerThread.registered]
  · simp [QsbrPerThread.registered]
  · simp [QsbrPerThread.registered, Pc.handling, Pc.loaded, Pc.rotated]
  · intro e' he' heq
    exact absurd (heq.trans (Pc.registerSpin.inj (hpc.symm.trans he')).symm) hne
  · simp

theorem deallocateLoad_callStep {pointer : Nat} (hpc : t.pc = .deallocateLoad pointer) :
    Ensures (q.deallocateLoad t pointer) (CallStep q t spurious) := by
  have hidle : ∀ {t' : QsbrPerThread}, t'.pc = .idle → CallStep q t spurious (q, t', .nothing) :=
    fun hpc' => .of_reading rfl (by rw [hpc]; rfl) (.inl (by rw [hpc']; rfl)) (by rw [hpc']; rfl)
      (by rw [hpc']; rfl)
  exact .bind_any fun _ => .bind_any fun _ => .ite
    (fun _ => .bind_any fun _ => .pure (hidle rfl)) fun _ => .ite
    (fun _ => .bind_any fun _ => .bind_any fun _ => .pure (hidle rfl))
    fun _ => .pure (hidle rfl)

theorem quiescentLoad_callStep (hpc : t.pc = .quiescentLoad) (hd : t.deferred = []) :
    Ensures (q.quiescentLoad t) (CallStep q t spurious) := by
  have hgo : ∀ {t' : QsbrPerThread}, t'.pc.handling = false → t'.pc.rotated = false →
      CallStep q t spurious (q, t', .nothing) :=
    fun hhandling hrotated => .of_reading rfl (by rw [hpc]; rfl) (.inr ⟨hd, .inl hpc⟩) hhandling hrotated
  have hrest : ∀ t₂ : QsbrPerThread, ∀ (e : Epoch) (single : Bool), Ensures (do
      assertThat (e = t₂.lastSeenQuiescentStateEpoch)
      if t₂.quiescentStatesSinceEpochChange = 0 then
        return (q, { t₂ with pc := .removeFetchSub e single }, .nothing)
      else
        return (q, { t₂ with
          quiescentStatesSinceEpochChange := t₂.quiescentStatesSinceEpochChange + 1
          pc := .idle }, .nothing)) (CallStep q t spurious) :=
    fun _ _ _ => .bind_any fun _ => .ite (fun _ => .pure (hgo rfl rfl)) fun _ => .pure (hgo rfl rfl)
  exact .bind_any fun e => .bind_any fun single => .bind_any fun _ => .ite
    (fun _ => .bind_any fun _ => .bind_any fun t₂ => hrest t₂ e single)
    fun _ => .bind_any fun t₂ => hrest t₂ e single

theorem removeFetchSub_callStep (hpc : t.pc = .removeFetchSub e single) :
    Ensures (q.removeFetchSub t e single) (CallStep q t spurious) := by
  have hsource : t.pc.reading = false ∧ t.pc.rotated = false ∧ ∀ e, t.pc ≠ .registerSpin e := by
    simp [hpc, Pc.reading, Pc.rotated]
  unfold Qsbr.removeFetchSub
  refine .bind_any fun _ => .bind_any fun _ => .bind_any fun _ => .bind_any fun _ =>
    .bind (singleThreadMode_ensures q.state) ?_
  rintro _ rfl
  refine .bind_any fun _ => .bind_any fun _ => .bind_any fun _ => .ite (fun _ => ?_) fun _ => .pure ?_
  · refine .bind quiescentFinish_pc fun t' ht' => .pure (.to rfl hsource ?_ (by simp))
    rw [ht']
    exact ⟨rfl, rfl, rfl⟩
  · have hto : CallStep q t spurious (q, { t with pc := .idle }, .passes) :=
      .to rfl hsource ⟨rfl, rfl, rfl⟩ (by simp)
    refine { hto with
      reading := fun h => absurd (hsource.1.symm.trans h) Bool.false_ne_true
      rotated := fun h => absurd (hsource.2.1.symm.trans h) Bool.false_ne_true
      single := fun stage caller h => .inr (.inl ?_)
      prepared := by simp
      unmarked := fun _ => .inr ⟨rfl, rfl, rfl⟩
      spin := fun e h => absurd h (hsource.2.2 e)
      registers := by simp }
    have hsingle := (Pc.handleOrphans.inj h).2.1
    exact of_decide_eq_true hsingle

theorem changeCas_callStep {word : BitVec 64} (hpc : t.pc = .changeCas e single word) :
    Ensures (q.changeCas t e single word spurious) (CallStep q t spurious) := by
  unfold Qsbr.changeCas
  refine .bind_any fun _ => .bind_any fun _ => .bind_any fun _ => .ite (fun _ => ?_) fun _ => .pure ?_
  · refine .bind_any fun _ => .bind_any fun _ => .pure ⟨List.suffix_rfl, ?_, ?_, ?_, ?_, ?_, ?_, ?_⟩
    · simp [hpc, Pc.reading]
    · exact fun _ => .inr (.inl rfl)
    · simp
    · simp
    · simp [Pc.handling, Pc.loaded, Pc.rotated]
    · simp [hpc]
    · simp
  · refine ⟨List.suffix_rfl, ?_, ?_, ?_, ?_, ?_, ?_, ?_⟩
    · simp [hpc, Pc.reading]
    · exact fun _ => .inl rfl
    · simp
    · simp
    · exact fun _ => .inl rfl
    · simp [hpc]
    · simp

theorem unregisterTry_callStep {word : BitVec 64} {prepared : Bool}
    (hpc : t.pc = .unregisterTry word prepared) :
    Ensures (q.unregisterTry t word prepared spurious) (CallStep q t spurious) := by
  have hreading : t.pc.reading = true → False := by simp [hpc, Pc.reading]
  have hspin : ∀ e, t.pc ≠ .registerSpin e := by simp [hpc]
  have hretry : CallStep q t spurious (q, { t with pc := .unregisterTry q.state prepared }, .nothing) := by
    refine ⟨List.suffix_rfl, fun h => (hreading h).elim, fun h => .inl ?_, by simp, fun word' h => .inl ?_,
      fun _ => .inl rfl, fun e h => absurd h (hspin e), by simp⟩
    · rw [hpc] at h
      cases prepared with
      | true => rfl
      | false => exact absurd h Bool.false_ne_true
    · have hprepared := (Pc.unregisterTry.inj h).2
      exact ⟨word, by rw [hpc, hprepared]⟩
  have hleaves : ∀ {q' : Qsbr} {t' : QsbrPerThread}, q'.deallocated = q.deallocated →
      CallStep q t spurious (q', { t' with pc := .orphanLoad .previous }, .leaves) := by
    intro q' t' hq'
    refine ⟨hq' ▸ List.suffix_rfl, fun h => (hreading h).elim, fun _ => .inr (.inr rfl), by simp, by simp,
      ?_, fun e h => absurd h (hspin e), by simp⟩
    simp [Pc.handling, Pc.loaded, Pc.rotated]
  unfold Qsbr.unregisterTry
  refine .bind_any fun _ => .ite (fun _ => .bind_any fun _ => .bind_any fun _ => .bind_any fun _ =>
    .ite (fun _ => .pure (hleaves rfl)) fun _ => .pure hretry) fun _ => .bind_any fun _ => ?_
  refine .bind (singleThreadMode_ensures word) ?_
  rintro _ rfl
  -- After the new state has been computed, either way.
  have hrest : ∀ {c c' c'' : Prop} [Decidable c] [Decidable c'] [Decidable c''] (e : Epoch)
      (newState : BitVec 64), Ensures (if c ∧ (!prepared) = true then
        pure (q, { t with
          pc := .handleOrphans .takePrevious (decide (doGetThreadCount word < 2)) (.unregisterThread word)
          }, .nothing)
      else if c' then do
        let t ← t.advanceLastSeenEpoch (decide (doGetThreadCount word < 2)) e []
        if c'' then
          return ({ q with state := newState }, { t with
            pc := .unregisterBumpLoad e (decide (doGetThreadCount word < 2)) }, .advances true)
        else
          return ({ q with state := newState }, { t with pc := .orphanLoad .previous }, .leaves)
      else pure (q, { t with pc := .unregisterTry q.state prepared }, .nothing) :
        Except Fault Qsbr.Result) (CallStep q t spurious) := by
    intro c c' c'' _ _ _ e newState
    refine .ite (fun hc => .pure ?_) fun _ => .ite (fun _ => .bind_any fun t' => .ite (fun _ => .pure ?_)
      fun _ => .pure (hleaves rfl)) fun _ => .pure hretry
    · refine ⟨List.suffix_rfl, fun h => (hreading h).elim, fun h => ?_,
        fun stage caller h => .inr (.inr ?_), by simp, fun _ => .inl rfl,
        fun e h => absurd h (hspin e), by simp⟩
      · rw [hpc] at h
        cases prepared with
        | true => exact absurd hc.2 Bool.false_ne_true
        | false => exact absurd h Bool.false_ne_true
      · obtain ⟨-, hsingle, rfl⟩ := Pc.handleOrphans.inj h
        exact ⟨word, rfl, of_decide_eq_true hsingle⟩
    · refine ⟨List.suffix_rfl, fun h => (hreading h).elim, fun _ => .inr (.inl rfl), by simp, by simp, ?_,
        fun e h => absurd h (hspin e), by simp⟩
      simp [Pc.handling, Pc.loaded, Pc.rotated]
  exact .ite (fun _ => .bind_any fun _ => hrest _ _) fun _ => .bind_any fun _ => hrest _ _

theorem handleOrphans_callStep {stage : HandleOrphans} {caller : Caller}
    (hpc : t.pc = .handleOrphans stage single caller) :
    Ensures (q.handleOrphans t stage single caller) (CallStep q t spurious) := by
  have hreading : t.pc.reading = true → False := by simp [hpc, Pc.reading]
  have hrotated : t.pc.rotated = true → False := by simp [hpc, Pc.rotated]
  have hspin : ∀ e, t.pc ≠ .registerSpin e := by simp [hpc]
  have hgo : ∀ {q' : Qsbr} {s : HandleOrphans} {ds : List Deferred}, q'.deallocated = q.deallocated →
      CallStep q t spurious (q', { t with pc := .handleOrphans s single caller, deferred := ds },
        .nothing) := by
    intro q' s ds hq'
    refine ⟨hq' ▸ List.suffix_rfl, fun h => (hreading h).elim, fun h => (hrotated h).elim,
      fun stage' caller' h => .inl ⟨stage, ?_⟩, by simp, fun _ => .inl rfl, fun e h => absurd h (hspin e),
      by simp⟩
    obtain ⟨-, rfl, rfl⟩ := Pc.handleOrphans.inj h
    exact hpc
  have hdone : ∀ {q' : Qsbr}, q'.deallocated = q.deallocated →
      CallStep q t spurious (q', { t with pc := caller.next }, .nothing) := by
    intro q' hq'
    refine ⟨hq' ▸ List.suffix_rfl, fun h => (hreading h).elim, fun h => (hrotated h).elim,
      by cases caller <;> simp [Caller.next], fun word h => .inr ⟨stage, single, ?_⟩, fun _ => .inl rfl,
      fun e h => absurd h (hspin e), by simp⟩
    cases caller with
    | changeEpoch e s => exact absurd h (by simp [Caller.next])
    | unregisterThread word' => exact ⟨word', hpc⟩
  have hfree : ∀ (i : Nat) (f : Option Nat → HandleOrphans),
      Ensures (q.freeListNode t i fun next => .handleOrphans (f next) single caller)
        (CallStep q t spurious) := fun i f => .bind_any fun node => .pure (hgo rfl)
  unfold Qsbr.handleOrphans
  cases stage with
  | takePrevious => exact .ok (hgo rfl)
  | takeCurrent => exact .ok (hgo rfl)
  | freePrevious list c =>
    cases list with
    | none => exact .ok (hgo rfl)
    | some i => exact hfree i fun next => .freePrevious next c
  | attach c =>
    dsimp only
    split
    · exact .ok (hdone rfl)
    · exact .ok (hgo rfl)
  | walk b c =>
    refine .bind_any fun node => ?_
    split
    · exact .pure (hgo rfl)
    · exact .pure (hgo rfl)
  | append b c => exact .bind_any fun node => .pure (hdone rfl)
  | freeCurrent list =>
    cases list with
    | none => exact .ok (hdone rfl)
    | some i => exact hfree i .freeCurrent

/-- Every step of a running call. -/
theorem go_callStep : Ensures (q.go t spurious) (CallStep q t spurious) := by
  unfold Qsbr.go
  split
  · exact .bind_any fun _ => .pure (.of_pc_eq (List.suffix_cons _ _) rfl)
  · rename_i hd
    have hsource : ∀ {pc : Pc}, t.pc = pc → pc.reading = false → pc.rotated = false →
        (∀ e, pc ≠ .registerSpin e) →
        t.pc.reading = false ∧ t.pc.rotated = false ∧ ∀ e, t.pc ≠ .registerSpin e := by
      rintro _ rfl hreading hrotated hspin
      exact ⟨hreading, hrotated, hspin⟩
    have hafter : ∀ {q' : Qsbr} {k : Interval}, Orphaning k t.pc → q'.deallocated = q.deallocated →
        Ensures (do return (q', ← (t.releaseNode k).afterOrphan k, .nothing))
          (CallStep q t spurious) := by
      intro q' k horphaning hq'
      refine .bind (afterOrphan_ensures _ k) ?_
      rintro _ rfl
      refine .pure (.to hq' ?_ ?_ (by simp))
      · rcases horphaning with hpc | hpc
        · exact hsource hpc rfl rfl (by simp)
        · exact hsource hpc rfl rfl (by simp)
      · cases k <;> exact ⟨rfl, rfl, rfl⟩
    cases hpc : t.pc with
    | paused | idle => exact .ok (.of_pc_eq List.suffix_rfl rfl)
    | registerLoad | changeBumpLoad | unregisterBumpLoad =>
      exact .ok (.to rfl (hsource hpc rfl rfl (by simp)) ⟨rfl, rfl, rfl⟩ (by simp))
    | changeLoad e single =>
      refine .ok ⟨List.suffix_rfl, ?_, fun _ => .inl rfl, by simp, by simp, fun _ => .inl rfl, ?_, by simp⟩
      · simp [hpc, Pc.reading]
      · simp [hpc]
    | unregisterLoad => exact .ok (.of_reading rfl (by rw [hpc]; rfl) (.inr ⟨hd, .inr hpc⟩) rfl rfl)
    | registerCas word => exact registerCas_callStep hpc hd
    | registerSpin e => exact registerSpin_callStep hpc
    | deallocateLoad pointer => exact deallocateLoad_callStep hpc
    | quiescentLoad => exact quiescentLoad_callStep hpc hd
    | removeFetchSub e single => exact removeFetchSub_callStep hpc
    | handleOrphans stage single caller => exact handleOrphans_callStep hpc
    | changeCas e single word => exact changeCas_callStep hpc
    | changeBumpStore e single count =>
      refine .bind quiescentFinish_pc fun t' ht' =>
        .pure (.to rfl (hsource hpc rfl rfl (by simp)) ?_ (by simp))
      rw [ht']
      exact ⟨rfl, rfl, rfl⟩
    | unregisterTry word prepared => exact unregisterTry_callStep hpc
    | unregisterBumpStore e single count =>
      exact .ok (.to rfl (hsource hpc rfl rfl (by simp)) ⟨rfl, rfl, rfl⟩ (by simp))
    | orphanLoad k =>
      dsimp only [Qsbr.orphanLoad]
      split
      · exact .error
      · exact .ite (fun _ => hafter (.inl hpc) rfl) fun _ => .pure
          (.to rfl (hsource hpc rfl rfl (by simp)) ⟨rfl, rfl, rfl⟩ (by simp))
    | orphanCas k =>
      dsimp only [Qsbr.orphanCas]
      split
      · exact .error
      · refine .bind_any fun node => .ite (fun _ => hafter (.inr hpc) ?_)
          fun _ => .pure (.of_pc_eq List.suffix_rfl rfl)
        cases k <;> rfl

end CallStep

end Unodb
