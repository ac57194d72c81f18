import Unodb.Qsbr.Model
import Mathlib.Data.Fintype.Card

/-!
# The threads that the QSBR state word counts

The fields of the state word count the registered threads and those of them that the current epoch
still waits for, the epochs that the threads remember are at most one behind, and every assertion
on epochs holds.
-/

open Finset

namespace Unodb

open QsbrState

/-! ## 1. Epochs -/

namespace Epoch

theorem advance_ne (e : Epoch) : e.advance 1 ≠ e := by
  revert e
  decide

theorem advance_inj {e e' : Epoch} (h : e.advance 1 = e'.advance 1) : e = e' := by
  revert e e'
  decide

theorem advance_two (e : Epoch) : (e.advance 1).advance 1 = e.advance 2 := by
  revert e
  decide

end Epoch

/-! ## 2. What the steps of a thread rely on -/

/-- The requests of a thread were made in the epochs it says, and the deallocations it is about to
    make satisfy their assertion. -/
structure RequestsOk (t : QsbrPerThread) : Prop where
  previous : ∀ r ∈ t.previousIntervalDeallocRequests, r.requestEpoch.advance 1 = t.lastSeenEpoch
  current : ∀ r ∈ t.currentIntervalDeallocRequests, r.requestEpoch = t.lastSeenEpoch
  deferred : ∀ d ∈ t.deferred, d.asserted = true

/-- A thread has no requests. -/
def NoRequests (t : QsbrPerThread) : Prop :=
  t.previousIntervalDeallocRequests = [] ∧ t.currentIntervalDeallocRequests = []

/-- A counted thread outside `quiescent`, in epoch `g`: if the epoch waits for it, it has not passed
    through a quiescent state in this epoch. -/
structure Settled (g : Epoch) (waited : Bool) (t : QsbrPerThread) : Prop where
  passed : waited = false →
    t.lastSeenQuiescentStateEpoch = g ∧ 0 < t.quiescentStatesSinceEpochChange
  notPassed : waited = true →
    (t.lastSeenQuiescentStateEpoch = g ∧ t.quiescentStatesSinceEpochChange = 0) ∨
      t.lastSeenQuiescentStateEpoch.advance 1 = g
  seen : t.lastSeenEpoch = g ∨
    (t.lastSeenEpoch.advance 1 = g ∧ t.lastSeenQuiescentStateEpoch.advance 1 = g)

/-- A thread that has passed the quiescent state of epoch `g` in its running `quiescent` call, or
    is about to. -/
structure InQuiescent (g : Epoch) (t : QsbrPerThread) : Prop where
  quiescentEpoch : t.lastSeenQuiescentStateEpoch = g
  epoch : t.lastSeenEpoch = g
  states : t.quiescentStatesSinceEpochChange = 0

/-- A word that the thread has loaded in `unregister_thread`.  If it had not passed in the epoch of
    the word, then that is the epoch still. -/
def Loaded (g : Epoch) (waited : Bool) (t : QsbrPerThread) (word : BitVec 64) : Prop :=
  ∃ e n p, word = pack e n p ∧ p ≤ n ∧ n < 2 ^ 30 ∧ 1 ≤ n ∧
    ((t.lastSeenQuiescentStateEpoch = e ∧ 0 < t.quiescentStatesSinceEpochChange ∧ p < n) ∨
      ((t.lastSeenQuiescentStateEpoch ≠ e ∨ t.quiescentStatesSinceEpochChange = 0) ∧
        waited = true ∧ e = g ∧ 1 ≤ p))

/-- What holds of a thread at each point, in epoch `g` with `p` threads in the previous epoch, among
    them this one or not. -/
def PcOk (g : Epoch) (p : Nat) (waited : Bool) (t : QsbrPerThread) : Prop :=
  match t.pc with
  | .paused | .registerLoad => waited = false ∧ NoRequests t
  | .registerCas word => waited = false ∧ NoRequests t ∧
      ∃ e n p, word = pack e n p ∧ p ≤ n ∧ n + 1 < 2 ^ 30
  -- Registered during an epoch change, and waiting for its end.
  | .registerSpin e => NoRequests t ∧ if waited then e.advance 1 = g else e = g ∧ p = 0
  -- Registered, and not inside of `quiescent`.
  | .idle | .deallocateLoad _ | .quiescentLoad | .unregisterLoad => Settled g waited t
  | .removeFetchSub e _ => waited = true ∧ e = g ∧ InQuiescent g t
  -- This thread has counted itself down as the last one, and changes the epoch.
  | .handleOrphans _ _ (.changeEpoch e _) | .changeLoad e _ =>
    waited = false ∧ p = 0 ∧ e = g ∧ InQuiescent g t
  | .changeCas e _ word =>
    waited = false ∧ p = 0 ∧ e = g ∧ InQuiescent g t ∧ ∃ n, word = pack g n 0 ∧ n < 2 ^ 30
  -- The epoch has changed by this call, and waits for this thread again.
  | .changeBumpLoad e _ | .changeBumpStore e _ _ =>
    waited = true ∧ e.advance 1 = g ∧ InQuiescent e t
  | .handleOrphans _ _ (.unregisterThread word) =>
    waited = true ∧ Settled g waited t ∧ Loaded g waited t word
  | .unregisterTry word _ => Settled g waited t ∧ Loaded g waited t word
  -- Not counted any more; the requests are still its own.
  | .unregisterBumpLoad e _ | .unregisterBumpStore e _ _ => waited = false ∧ t.lastSeenEpoch = e
  | .orphanLoad .previous => waited = false
  | .orphanCas .previous => waited = false ∧ t.previousIntervalDeallocRequests = []
  | .orphanLoad .current => waited = false ∧ t.previousIntervalDeallocRequests = [] ∧
      t.previousIntervalOrphanListNode = none
  | .orphanCas .current => waited = false ∧ t.previousIntervalDeallocRequests = [] ∧
      t.previousIntervalOrphanListNode = none ∧ t.currentIntervalDeallocRequests = []

/-! ## 3. Local computations -/

section Local

variable {t : QsbrPerThread} {g e : Epoch} {w : Bool}

/-- `execute_previous_requests` in the epoch after the last seen one. -/
theorem RequestsOk.execute (h : RequestsOk t) (single : Bool) (rs : List DeallocationRequest)
    (hrs : ∀ r ∈ rs, r.requestEpoch = e) (he : t.lastSeenEpoch.advance 1 = e) :
    RequestsOk (t.executePreviousRequests single e rs) := by
  have hdefer : ∀ r ∈ t.previousIntervalDeallocRequests,
      (Deferred.request r false (some e) (some single)).asserted = true := by
    intro r hr
    have hr2 : e = r.requestEpoch.advance 2 := by
      rw [← Epoch.advance_two, h.previous r hr, he]
    simp [Deferred.asserted, ← hr2]
  unfold QsbrPerThread.executePreviousRequests
  cases single with
  | false =>
    refine ⟨?_, hrs, ?_⟩
    · intro r hr
      show r.requestEpoch.advance 1 = e
      rw [h.current r hr, he]
    · simpa using hdefer
  | true =>
    refine ⟨by simp, hrs, ?_⟩
    intro d hd
    rcases List.mem_append.mp hd with hd | hd
    · obtain ⟨r, hr, rfl⟩ := List.mem_map.mp hd
      have hr1 : e = r.requestEpoch.advance 1 := by rw [h.current r hr, he]
      simp [Deferred.asserted, ← hr1]
    · obtain ⟨r, hr, rfl⟩ := List.mem_map.mp hd
      exact hdefer r hr

/-- `execute_previous_requests` changes only the requests and the last seen epoch. -/
theorem execute_eq (t : QsbrPerThread) (single : Bool) (e : Epoch) (rs : List DeallocationRequest) :
    (t.executePreviousRequests single e rs).pc = t.pc ∧
    (t.executePreviousRequests single e rs).lastSeenEpoch = e ∧
    (t.executePreviousRequests single e rs).lastSeenQuiescentStateEpoch =
      t.lastSeenQuiescentStateEpoch ∧
    (t.executePreviousRequests single e rs).quiescentStatesSinceEpochChange =
      t.quiescentStatesSinceEpochChange ∧
    (t.executePreviousRequests single e rs).currentIntervalDeallocRequests = rs := by
  unfold QsbrPerThread.executePreviousRequests
  cases single <;> exact ⟨rfl, rfl, rfl, rfl, rfl⟩

/-- `advance_last_seen_epoch` to the global epoch. -/
theorem advance_spec (single : Bool) (h : RequestsOk t)
    (hseen : t.lastSeenEpoch = g ∨ t.lastSeenEpoch.advance 1 = g) (rs : List DeallocationRequest)
    (hrs : ∀ r ∈ rs, r.requestEpoch = g) :
    ∃ t', t.advanceLastSeenEpoch single g rs = .ok t' ∧ RequestsOk t' ∧ t'.pc = t.pc ∧
      t'.lastSeenEpoch = g ∧ t'.lastSeenQuiescentStateEpoch = t.lastSeenQuiescentStateEpoch ∧
      t'.quiescentStatesSinceEpochChange = t.quiescentStatesSinceEpochChange ∧
      (t.lastSeenEpoch ≠ g → t'.currentIntervalDeallocRequests = rs) := by
  unfold QsbrPerThread.advanceLastSeenEpoch
  by_cases heq : g = t.lastSeenEpoch
  · rw [if_pos heq]
    exact ⟨t, rfl, h, rfl, heq.symm, rfl, rfl, fun hne => absurd heq.symm hne⟩
  · have hadv : t.lastSeenEpoch.advance 1 = g := hseen.resolve_left (Ne.symm heq)
    obtain ⟨hpc, hepoch, hquiescent, hstates, hcurrent⟩ := execute_eq t single g rs
    rw [if_neg heq, assertThat_pos (.inl hadv.symm)]
    exact ⟨_, rfl, h.execute single rs hrs hadv, hpc, hepoch, hquiescent, hstates, fun _ => hcurrent⟩

theorem Settled.seen' (h : Settled g w t) :
    t.lastSeenEpoch = g ∨ t.lastSeenEpoch.advance 1 = g := h.seen.imp_right And.left

/-- A thread that has passed is not waited for. -/
theorem Settled.waited_eq_false (h : Settled g w t) (hquiescent : t.lastSeenQuiescentStateEpoch = g)
    (hstates : 0 < t.quiescentStatesSinceEpochChange) : w = false := by
  by_contra hw
  rcases h.notPassed (Bool.not_eq_false _ ▸ hw) with ⟨-, hzero⟩ | hadv
  · omega
  · rw [hquiescent] at hadv
    exact Epoch.advance_ne g hadv

/-- The word that a settled thread loads. -/
theorem Settled.loaded {n p : Nat} (h : Settled g w t) (hp : p ≤ n) (hn : n < 2 ^ 30)
    (hpos : w = true → 0 < p) (hlt : w = false → p < n) : Loaded g w t (pack g n p) := by
  cases w with
  | false =>
    obtain ⟨hquiescent, hstates⟩ := h.passed rfl
    have hlt := hlt rfl
    exact ⟨g, n, p, rfl, hp, hn, by omega, .inl ⟨hquiescent, hstates, hlt⟩⟩
  | true =>
    have hpos := hpos rfl
    refine ⟨g, n, p, rfl, hp, hn, by omega, .inr ⟨?_, rfl, rfl, hpos⟩⟩
    rcases h.notPassed rfl with ⟨-, hzero⟩ | hadv
    · exact .inr hzero
    · left
      intro heq
      rw [heq] at hadv
      exact Epoch.advance_ne g hadv

theorem settled_deferred (ds : List Deferred) :
    Settled g w { t with deferred := ds } ↔ Settled g w t :=
  ⟨fun h => ⟨h.passed, h.notPassed, h.seen⟩, fun h => ⟨h.passed, h.notPassed, h.seen⟩⟩

theorem inQuiescent_deferred (ds : List Deferred) :
    InQuiescent g { t with deferred := ds } ↔ InQuiescent g t :=
  ⟨fun h => ⟨h.quiescentEpoch, h.epoch, h.states⟩, fun h => ⟨h.quiescentEpoch, h.epoch, h.states⟩⟩

/-- Deallocations leave what holds of the thread as it is. -/
theorem PcOk.setDeferred {p : Nat} (h : PcOk g p w t) (ds : List Deferred) :
    PcOk g p w { t with deferred := ds } := by
  simp only [PcOk, settled_deferred, inQuiescent_deferred]
  exact h

end Local

/-! ## 4. One step of a thread -/

/-- What a step of a thread does to the fields of the state word and to itself. -/
inductive Effect (g : Epoch) (n p : Nat) (w : Bool) (t : QsbrPerThread) : Qsbr.Result → Prop where
  | quiet {q : Qsbr} {t' : QsbrPerThread} : q.state = pack g n p → t'.pc.counted = t.pc.counted →
      t'.pc.changing = t.pc.changing → PcOk g p w t' → Effect g n p w t (q, t', .nothing)
  | joins {q : Qsbr} {t' : QsbrPerThread} : q.state = pack g (n + 1) (p + 1) → 0 < p ∨ n = 0 →
      t.pc.counted = false → t'.pc = .idle → t'.lastSeenQuiescentStateEpoch = g →
      PcOk g (p + 1) true t' → Effect g n p w t (q, t', .joins true)
  | joinsLate {q : Qsbr} {t' : QsbrPerThread} {e : Epoch} : q.state = pack g (n + 1) p → p = 0 →
      0 < n → t.pc.counted = false → t'.pc = .registerSpin e → PcOk g p false t' →
      Effect g n p w t (q, t', .joins false)
  | passes {q : Qsbr} {t' : QsbrPerThread} : q.state = pack g n (p - 1) → w = true → 0 < p →
      t.pc.counted = true → t'.pc.counted = true → (t'.pc.changing = true ↔ p = 1) →
      PcOk g (p - 1) false t' → Effect g n p w t (q, t', .passes)
  | leaves {q : Qsbr} {t' : QsbrPerThread} : q.state = pack g (n - 1) p → w = false → 0 < n →
      t.pc.counted = true → t.pc.changing = false → t'.pc.counted = false → PcOk g p false t' →
      Effect g n p w t (q, t', .leaves)
  | leavesUnpassed {q : Qsbr} {t' : QsbrPerThread} : q.state = pack g (n - 1) (p - 1) → w = true →
      1 < p → t.pc.counted = true → t.pc.changing = false → t'.pc.counted = false →
      PcOk g (p - 1) false t' → Effect g n p w t (q, t', .leaves)
  | advances {q : Qsbr} {t' : QsbrPerThread} : q.state = pack (g.advance 1) n n → p = 0 →
      t.pc.changing = true → t'.pc.counted = true → t'.pc.changing = false →
      PcOk (g.advance 1) n true t' → Effect g n p w t (q, t', .advances false)
  | advancesAndLeaves {q : Qsbr} {t' : QsbrPerThread} :
      q.state = pack (g.advance 1) (n - 1) (n - 1) → w = true → p = 1 → t.pc.counted = true →
      t'.pc.counted = false → PcOk (g.advance 1) (n - 1) false t' →
      Effect g n p w t (q, t', .advances true)

/-- The next step follows a pointer to a list node. -/
def Pc.follows : Pc → Bool
  | .handleOrphans .. | .orphanLoad _ | .orphanCas _ => true
  | _ => false

/-- A step has its effect, or it follows a pointer to no list node. -/
def StepOk (g : Epoch) (n p : Nat) (w : Bool) (t : QsbrPerThread) (r : Except Fault Qsbr.Result) :
    Prop :=
  match r with
  | .ok r => Effect g n p w t r ∧ RequestsOk r.2.1
  | .error fault => fault = .badAccess ∧ t.pc.follows = true

section Step

variable {q : Qsbr} {t : QsbrPerThread} {g : Epoch} {n p : Nat} {w : Bool} (spurious : Bool)
  (hword : q.state = pack g n p) (hp : p ≤ n) (hn : n < 2 ^ 30) (hreq : RequestsOk t)

include hword hp hn hreq in
theorem registerCas_ok {word : BitVec 64} (hpc : t.pc = .registerCas word) (hok : PcOk g p w t)
    (hroom : n + 1 < 2 ^ 30) : StepOk g n p w t (q.registerCas t word spurious) := by
  simp only [PcOk, hpc] at hok
  obtain ⟨hw, ⟨hprev, hcur⟩, e, n', p', rfl, hp', hn'⟩ := hok
  have hn0 : n' < 2 ^ 30 := by omega
  have hretry : StepOk g n p w t (.ok (q, { t with pc := .registerCas q.state }, .nothing)) :=
    ⟨.quiet hword (by simp [hpc, Pc.counted]) (by simp [hpc, Pc.changing])
      ⟨hw, ⟨hprev, hcur⟩, g, n, p, hword, hp, hroom⟩, ⟨hreq.previous, hreq.current, hreq.deferred⟩⟩
  simp only [Qsbr.registerCas, getEpoch_pack e hn0 hp', getThreadCount_pack e hn0 hp',
    getThreadsInPreviousEpoch_pack e hn0 hp', ok_bind]
  by_cases hcond : 0 < p' ∨ n' = 0
  · rw [if_pos hcond, incThreadCountAndThreadsInPreviousEpoch_pack e hn' hp', ok_bind]
    by_cases hcas : q.state = pack e n' p' ∧ (!spurious) = true
    · rw [if_pos hcas]
      obtain ⟨rfl, rfl, rfl⟩ := pack_inj hn hp hn0 hp' (hword.symm.trans hcas.1)
      refine ⟨.joins rfl hcond (by rw [hpc]; rfl) rfl rfl ?_, ?_⟩
      · exact ⟨by simp, fun _ => .inl ⟨rfl, rfl⟩, .inl rfl⟩
      · exact ⟨by simp [QsbrPerThread.registered, hprev], by simp [QsbrPerThread.registered, hcur],
          hreq.deferred⟩
    · rw [if_neg hcas]
      exact hretry
  · have hp0 : p' = 0 := by omega
    have hn1 : 0 < n' := by omega
    rw [if_neg hcond, assertThat_pos hp0, assertThat_pos hn1, incThreadCount_pack e hn' hp']
    simp only [ok_bind]
    by_cases hcas : q.state = pack e n' p' ∧ (!spurious) = true
    · rw [if_pos hcas]
      obtain ⟨rfl, rfl, rfl⟩ := pack_inj hn hp hn0 hp' (hword.symm.trans hcas.1)
      refine ⟨.joinsLate rfl hp0 hn1 (by rw [hpc]; rfl) rfl ?_,
        ⟨hreq.previous, hreq.current, hreq.deferred⟩⟩
      exact ⟨⟨hprev, hcur⟩, rfl, hp0⟩
    · rw [if_neg hcas]
      exact hretry

include hword hp hn hreq in
theorem registerSpin_ok {e : Epoch} (hpc : t.pc = .registerSpin e) (hok : PcOk g p w t) :
    StepOk g n p w t (q.registerSpin t e) := by
  have hok' := hok
  simp only [PcOk, hpc] at hok'
  obtain ⟨⟨hprev, hcur⟩, hspin⟩ := hok'
  simp only [Qsbr.registerSpin, hword, getEpoch_pack g hn hp, ok_bind]
  by_cases hne : g ≠ e
  · rw [if_pos hne]
    cases w with
    | false => exact absurd hspin.1.symm hne
    | true =>
      refine ⟨.quiet hword (by simp [hpc, QsbrPerThread.registered, Pc.counted])
        (by simp [hpc, QsbrPerThread.registered, Pc.changing]) ?_, ?_⟩
      · exact ⟨by simp, fun _ => .inl ⟨rfl, rfl⟩, .inl rfl⟩
      · exact ⟨by simp [QsbrPerThread.registered, hprev], by simp [QsbrPerThread.registered, hcur],
          hreq.deferred⟩
  · rw [if_neg hne]
    exact ⟨.quiet hword rfl rfl hok, hreq⟩

include hword hp hn hreq in
theorem deallocateLoad_ok {pointer : Nat} (hpc : t.pc = .deallocateLoad pointer)
    (hok : PcOk g p w t) : StepOk g n p w t (q.deallocateLoad t pointer) := by
  simp only [PcOk, hpc] at hok
  simp only [Qsbr.deallocateLoad, hword, getEpoch_pack g hn hp, singleThreadMode_pack g hn hp,
    ok_bind]
  have hquiet : ∀ {t' : QsbrPerThread}, t'.pc = .idle → t'.lastSeenEpoch = g →
      t'.lastSeenQuiescentStateEpoch = t.lastSeenQuiescentStateEpoch →
      t'.quiescentStatesSinceEpochChange = t.quiescentStatesSinceEpochChange →
      Effect g n p w t (q, t', .nothing) := by
    intro t' hpc' hseen hquiescent hstates
    refine .quiet hword (by rw [hpc, hpc']; rfl) (by rw [hpc, hpc']; rfl) ?_
    simp only [PcOk, hpc']
    refine ⟨?_, ?_, .inl hseen⟩
    · rw [hquiescent, hstates]
      exact hok.passed
    · rw [hquiescent, hstates]
      exact hok.notPassed
  by_cases hsingle : n < 2
  · obtain ⟨t', ht', hreq', -, hseen, hquiescent, hstates, -⟩ :=
      advance_spec true hreq hok.seen' [] (by simp)
    rw [decide_eq_true hsingle, if_pos rfl, ht', ok_bind]
    refine ⟨hquiet rfl hseen hquiescent hstates, hreq'.previous, hreq'.current, ?_⟩
    intro d hd
    rcases List.mem_append.mp hd with hd | hd
    · exact hreq'.deferred d hd
    · rw [List.mem_singleton] at hd
      rw [hd]
      rfl
  · rw [decide_eq_false hsingle, if_neg Bool.false_ne_true]
    by_cases hne : t.lastSeenEpoch ≠ g
    · obtain ⟨t', ht', hreq', -, hseen, hquiescent, hstates, hcurrent⟩ :=
        advance_spec false hreq hok.seen' [⟨pointer, g⟩] (by simp)
      have hlen : t'.currentIntervalDeallocRequests.length = 1 := by rw [hcurrent hne]; rfl
      rw [if_pos hne, ht', ok_bind, assertThat_pos hlen, ok_bind]
      exact ⟨hquiet rfl hseen hquiescent hstates, hreq'.previous, hreq'.current, hreq'.deferred⟩
    · have hseen : t.lastSeenEpoch = g := not_not.mp hne
      rw [if_neg hne]
      refine ⟨hquiet rfl hseen rfl rfl, hreq.previous, ?_, hreq.deferred⟩
      intro r hr
      rcases List.mem_append.mp hr with hr | hr
      · exact hreq.current r hr
      · rw [List.mem_singleton] at hr
        rw [hr]

include hword hp hn hreq in
theorem quiescentLoad_ok (hpc : t.pc = .quiescentLoad) (hok : PcOk g p w t) :
    StepOk g n p w t (q.quiescentLoad t) := by
  simp only [PcOk, hpc] at hok
  obtain ⟨t', ht', hreq', -, hseen, hquiescent, hstates, -⟩ :=
    advance_spec (decide (n < 2)) hreq hok.seen' [] (by simp)
  simp only [Qsbr.quiescentLoad, hword, getEpoch_pack g hn hp, singleThreadMode_pack g hn hp,
    ok_bind, ht']
  have hpass : ∀ {t₁ : QsbrPerThread}, t₁.pc = .removeFetchSub g (decide (n < 2)) → w = true →
      InQuiescent g t₁ → Effect g n p w t (q, t₁, .nothing) := by
    intro t₁ hpc₁ hw hin
    refine .quiet hword (by rw [hpc, hpc₁]; rfl) (by rw [hpc, hpc₁]; rfl) ?_
    simp only [PcOk, hpc₁]
    exact ⟨hw, trivial, hin⟩
  by_cases hne : g ≠ t'.lastSeenQuiescentStateEpoch
  · -- The first quiescent state that the thread passes in this epoch.
    have hw : w = true := by
      by_contra hw
      exact hne (hquiescent ▸ (hok.passed (Bool.eq_false_iff.mpr hw)).1.symm)
    have hadv : g = t'.lastSeenQuiescentStateEpoch.advance 1 := by
      rcases hok.notPassed hw with ⟨heq, -⟩ | hadv
      · exact absurd (hquiescent ▸ heq.symm) hne
      · rw [hquiescent, hadv]
    rw [if_pos hne, assertThat_pos hadv]
    simp only [ok_bind, pure_bind]
    rw [assertThat_true, ok_bind, if_pos trivial]
    exact ⟨hpass rfl hw ⟨rfl, hseen, rfl⟩, hreq'.previous, hreq'.current, hreq'.deferred⟩
  · have heq : g = t'.lastSeenQuiescentStateEpoch := not_not.mp hne
    rw [if_neg hne]
    simp only [pure_bind]
    rw [assertThat_pos heq, ok_bind]
    by_cases hzero : t'.quiescentStatesSinceEpochChange = 0
    · have hw : w = true := by
        by_contra hw
        have := (hok.passed (Bool.eq_false_iff.mpr hw)).2
        omega
      rw [if_pos hzero]
      exact ⟨hpass rfl hw ⟨heq.symm, hseen, hzero⟩, hreq'.previous, hreq'.current, hreq'.deferred⟩
    · have hw : w = false := hok.waited_eq_false (hquiescent.symm.trans heq.symm) (by omega)
      rw [if_neg hzero]
      refine ⟨.quiet hword (by rw [hpc]; rfl) (by rw [hpc]; rfl) ?_, hreq'.previous, hreq'.current,
        hreq'.deferred⟩
      exact ⟨fun _ => ⟨heq.symm, Nat.succ_pos _⟩, fun h => absurd (hw.symm.trans h) (by decide),
        .inl hseen⟩

include hword hp hn hreq in
theorem removeFetchSub_ok {e : Epoch} {single : Bool} (hpc : t.pc = .removeFetchSub e single)
    (hok : PcOk g p w t) (hpos : w = true → 0 < p) :
    StepOk g n p w t (q.removeFetchSub t e single) := by
  simp only [PcOk, hpc] at hok
  obtain ⟨hw, rfl, hquiescent, hepoch, hstates⟩ := hok
  have hp0 := hpos hw
  obtain ⟨p', rfl⟩ := Nat.exists_eq_succ_of_ne_zero (Nat.ne_of_gt hp0)
  simp only [Qsbr.removeFetchSub, hword, getThreadsInPreviousEpoch_pack e hn hp,
    getEpoch_pack e hn hp, singleThreadMode_pack e hn hp, assertInvariants_pack e hn hp, ok_bind,
    assertThat_pos hp0, assertThat_pos (Or.inl hquiescent), assertThat_true]
  rw [pack_sub_one e hn hp]
  by_cases hone : 1 < p' + 1
  · rw [if_pos hone, QsbrPerThread.quiescentFinish, assertThat_pos (.inl hquiescent.symm), ok_bind,
      if_neg (not_not.mpr hquiescent.symm)]
    refine ⟨.passes rfl hw hp0 (by rw [hpc]; rfl) rfl ?_ ?_, hreq.previous, hreq.current,
      hreq.deferred⟩
    · exact iff_of_false (by simp [Pc.changing]) (by omega)
    · exact ⟨fun _ => ⟨hquiescent, Nat.succ_pos _⟩, by simp, .inl hepoch⟩
  · have hzero : p' = 0 := by omega
    rw [if_neg hone]
    refine ⟨.passes rfl hw hp0 (by rw [hpc]; rfl) rfl ?_ ?_, hreq.previous, hreq.current,
      hreq.deferred⟩
    · exact iff_of_true rfl (by omega)
    · exact ⟨rfl, hzero, rfl, hquiescent, hepoch, hstates⟩

/-- `epoch_change_barrier_and_handle_orphans` changes nothing of what is counted. -/
theorem PcOk.handleOrphans {stage : HandleOrphans} {single : Bool} {caller : Caller}
    (hpc : t.pc = .handleOrphans stage single caller) (hok : PcOk g p w t) (s : HandleOrphans)
    (ds : List Deferred) :
    PcOk g p w { t with pc := .handleOrphans s single caller, deferred := ds } := by
  cases caller with
  | changeEpoch e s =>
    simp only [PcOk, hpc] at hok
    obtain ⟨hw, hzero, he, hquiescent, hepoch, hstates⟩ := hok
    exact ⟨hw, hzero, he, hquiescent, hepoch, hstates⟩
  | unregisterThread word =>
    simp only [PcOk, hpc] at hok
    obtain ⟨hw, ⟨hpassed, hnot, hseen⟩, hloaded⟩ := hok
    exact ⟨hw, ⟨hpassed, hnot, hseen⟩, hloaded⟩

theorem PcOk.handleOrphans_done {stage : HandleOrphans} {single : Bool} {caller : Caller}
    (hpc : t.pc = .handleOrphans stage single caller) (hok : PcOk g p w t) :
    PcOk g p w { t with pc := caller.next } := by
  cases caller with
  | changeEpoch e s =>
    simp only [PcOk, hpc] at hok
    obtain ⟨hw, hzero, he, hquiescent, hepoch, hstates⟩ := hok
    exact ⟨hw, hzero, he, hquiescent, hepoch, hstates⟩
  | unregisterThread word =>
    simp only [PcOk, hpc] at hok
    obtain ⟨hw, ⟨hpassed, hnot, hseen⟩, hloaded⟩ := hok
    exact ⟨⟨hpassed, hnot, hseen⟩, hloaded⟩

omit hp hn in
include hword hreq in
theorem handleOrphans_ok {stage : HandleOrphans} {single : Bool} {caller : Caller}
    (hpc : t.pc = .handleOrphans stage single caller) (hok : PcOk g p w t) :
    StepOk g n p w t (q.handleOrphans t stage single caller) := by
  have hfollows : t.pc.follows = true := by rw [hpc]; rfl
  have hgo : ∀ {q' : Qsbr} (stage' : HandleOrphans), q'.state = q.state →
      StepOk g n p w t (.ok (q', { t with pc := .handleOrphans stage' single caller }, .nothing)) := by
    intro q' stage' hq'
    refine ⟨.quiet (hq'.trans hword) ?_ ?_ (hok.handleOrphans hpc stage' _), hreq.previous,
      hreq.current, hreq.deferred⟩
    · rw [hpc]
      cases caller <;> rfl
    · rw [hpc]
      cases caller <;> rfl
  have hdone : ∀ {q' : Qsbr}, q'.state = q.state →
      StepOk g n p w t (.ok (q', { t with pc := caller.next }, .nothing)) := by
    intro q' hq'
    refine ⟨.quiet (hq'.trans hword) ?_ ?_ (hok.handleOrphans_done hpc), hreq.previous,
      hreq.current, hreq.deferred⟩
    · rw [hpc]
      cases caller <;> rfl
    · rw [hpc]
      cases caller <;> rfl
  have hfree : ∀ (i : Nat) (stage' : Option Nat → HandleOrphans),
      StepOk g n p w t
        (q.freeListNode t i fun next => .handleOrphans (stage' next) single caller) := by
    intro i stage'
    simp only [Qsbr.freeListNode, Qsbr.node]
    split
    · refine ⟨.quiet hword ?_ ?_ (hok.handleOrphans hpc (stage' _) _), hreq.previous,
        hreq.current, ?_⟩
      · rw [hpc]
        cases caller <;> rfl
      · rw [hpc]
        cases caller <;> rfl
      · intro d hd
        obtain ⟨r, -, rfl⟩ := List.mem_map.mp hd
        rfl
    · exact ⟨rfl, hfollows⟩
  unfold Qsbr.handleOrphans
  cases stage with
  | takePrevious => exact hgo _ rfl
  | takeCurrent a => exact hgo _ rfl
  | freePrevious list b =>
    cases list with
    | none => exact hgo _ rfl
    | some i => exact hfree i fun next => .freePrevious next b
  | attach b =>
    dsimp only
    split
    · exact hdone rfl
    · exact hgo _ rfl
  | walk i b =>
    simp only [Qsbr.node]
    split
    · simp only [ok_bind]
      split
      · exact hgo _ rfl
      · exact hgo _ rfl
    · exact ⟨rfl, hfollows⟩
  | append i b =>
    simp only [Qsbr.node]
    split
    · exact hdone rfl
    · exact ⟨rfl, hfollows⟩
  | freeCurrent list =>
    cases list with
    | none => exact hdone rfl
    | some i => exact hfree i .freeCurrent

include hword hp hn hreq in
theorem changeCas_ok {e : Epoch} {single : Bool} {word : BitVec 64}
    (hpc : t.pc = .changeCas e single word) (hok : PcOk g p w t) :
    StepOk g n p w t (q.changeCas t e single word spurious) := by
  simp only [PcOk, hpc] at hok
  obtain ⟨hw, hzero, rfl, ⟨hquiescent, hepoch, hstates⟩, n', rfl, hn'⟩ := hok
  subst hzero
  simp only [Qsbr.changeCas, getEpoch_pack e hn' (Nat.zero_le n'), ok_bind, assertThat_true,
    incEpochResetPrevious_pack e hn']
  by_cases hcas : q.state = pack e n' 0 ∧ (!spurious) = true
  · obtain ⟨-, rfl, -⟩ := pack_inj hn hp hn' (Nat.zero_le n') (hword.symm.trans hcas.1)
    rw [if_pos hcas, getEpoch_pack _ hn (Nat.le_refl n)]
    simp only [ok_bind, assertThat_true]
    refine ⟨.advances rfl rfl ?_ rfl rfl ?_, hreq.previous, hreq.current, hreq.deferred⟩
    · rw [hpc]
      rfl
    · exact ⟨rfl, rfl, hquiescent, hepoch, hstates⟩
  · rw [if_neg hcas]
    refine ⟨.quiet hword (by simp only [hpc, Pc.counted]) (by simp only [hpc, Pc.changing]) ?_,
      hreq.previous, hreq.current, hreq.deferred⟩
    exact ⟨hw, rfl, rfl, ⟨hquiescent, hepoch, hstates⟩, n, hword, hn⟩

omit hp hn in
include hword hreq in
theorem changeBumpStore_ok {e : Epoch} {single : Bool} {count : Nat}
    (hpc : t.pc = .changeBumpStore e single count) (hok : PcOk g p w t) :
    StepOk g n p w t (do
      return ({ q with epochChangeCount := count + 1 },
        ← t.quiescentFinish single (e.advance 1), .nothing)) := by
  simp only [PcOk, hpc] at hok
  obtain ⟨hw, rfl, hquiescent, hepoch, hstates⟩ := hok
  have hne : e.advance 1 ≠ t.lastSeenQuiescentStateEpoch := by
    rw [hquiescent]
    exact Epoch.advance_ne e
  have hadv : t.lastSeenEpoch.advance 1 = e.advance 1 := by rw [hepoch]
  rw [QsbrPerThread.quiescentFinish, assertThat_pos (.inr (by rw [hquiescent])), ok_bind,
    if_pos hne, assertThat_pos hadv]
  obtain ⟨hpc', hepoch', hquiescent', hstates', -⟩ := execute_eq
    { t with lastSeenQuiescentStateEpoch := e.advance 1, pc := .idle } single (e.advance 1) []
  refine ⟨.quiet hword ?_ ?_ ?_, ?_⟩
  · rw [hpc, hpc']
    rfl
  · rw [hpc, hpc']
    rfl
  · simp only [PcOk, hpc']
    exact ⟨fun h => absurd (hw.symm.trans h) (by decide),
      fun _ => .inl ⟨hquiescent', hstates'.trans hstates⟩, .inl hepoch'⟩
  · have hreq' : RequestsOk { t with lastSeenQuiescentStateEpoch := e.advance 1, pc := .idle } :=
      ⟨hreq.previous, hreq.current, hreq.deferred⟩
    exact hreq'.execute single [] (by simp) hadv

include hword hp hn hreq in
theorem unregisterTry_ok {word : BitVec 64} {prepared : Bool}
    (hpc : t.pc = .unregisterTry word prepared) (hok : PcOk g p w t) (hpos : w = true → 0 < p)
    (hlt : w = false → p < n) : StepOk g n p w t (q.unregisterTry t word prepared spurious) := by
  simp only [PcOk, hpc] at hok
  obtain ⟨hsettled, hloaded⟩ := hok
  -- The exchange fails: the thread stays counted, and looks at the new word.
  have hretry : StepOk g n p w t (.ok (q, { t with pc := .unregisterTry q.state prepared },
      .nothing)) := by
    refine ⟨.quiet hword (by simp only [hpc, Pc.counted]) (by simp only [hpc, Pc.changing]) ?_,
      hreq.previous, hreq.current, hreq.deferred⟩
    rw [hword]
    exact ⟨⟨hsettled.passed, hsettled.notPassed, hsettled.seen⟩,
      hsettled.loaded hp hn hpos hlt⟩
  obtain ⟨e, n', p', rfl, hp', hn', hn1, hloaded⟩ := hloaded
  have hcounted : t.pc.counted = true := by simp only [hpc, Pc.counted]
  have hchanging : t.pc.changing = false := by simp only [hpc, Pc.changing]
  simp only [Qsbr.unregisterTry, getThreadsInPreviousEpoch_pack e hn' hp', getEpoch_pack e hn' hp',
    singleThreadMode_pack e hn' hp', ok_bind]
  obtain ⟨m, rfl⟩ := Nat.exists_eq_succ_of_ne_zero (Nat.ne_of_gt hn1)
  rcases hloaded with ⟨hquiescent, hstates, hlt'⟩ | ⟨hnot, hw, rfl, hp1⟩
  · -- The thread has passed in the epoch of the word: only the thread count goes down.
    have hdec := decThreadCount_pack e hn' (Nat.le_of_lt_succ hlt')
    by_cases hzero : p' = 0
    · rw [if_pos hzero, assertThat_pos hquiescent, ok_bind, hdec, ok_bind]
      by_cases hcas : q.state = pack e (m + 1) p' ∧ (!spurious) = true
      · obtain ⟨rfl, rfl, rfl⟩ := pack_inj hn hp hn' hp' (hword.symm.trans hcas.1)
        rw [if_pos hcas]
        exact ⟨.leaves rfl (hsettled.waited_eq_false hquiescent hstates) hn1 hcounted hchanging rfl
          rfl, hreq.previous, hreq.current, hreq.deferred⟩
      · rw [if_neg hcas]
        exact hretry
    · have hremove : decide (t.lastSeenQuiescentStateEpoch ≠ e ∨
          t.quiescentStatesSinceEpochChange = 0) = false := by
        rw [decide_eq_false_iff_not]
        exact not_or.mpr ⟨not_not.mpr hquiescent, Nat.ne_of_gt hstates⟩
      rw [if_neg hzero]
      simp only [hremove, Bool.false_eq_true, false_and, decide_false, if_false, hdec, ok_bind]
      by_cases hcas : q.state = pack e (m + 1) p' ∧ (!spurious) = true
      · obtain ⟨rfl, rfl, rfl⟩ := pack_inj hn hp hn' hp' (hword.symm.trans hcas.1)
        obtain ⟨t', ht', hreq', -⟩ :=
          advance_spec (decide (m + 1 < 2)) hreq hsettled.seen' [] (by simp)
        rw [if_pos hcas, ht', ok_bind]
        exact ⟨.leaves rfl (hsettled.waited_eq_false hquiescent hstates) hn1 hcounted hchanging rfl
          rfl, hreq'.previous, hreq'.current, hreq'.deferred⟩
      · rw [if_neg hcas]
        exact hretry
  · -- It has not: it is in the previous epoch, and may be the last one there.
    have hremove : decide (t.lastSeenQuiescentStateEpoch ≠ e ∨
        t.quiescentStatesSinceEpochChange = 0) = true := decide_eq_true hnot
    obtain ⟨k, rfl⟩ := Nat.exists_eq_succ_of_ne_zero (Nat.ne_of_gt hp1)
    obtain ⟨t', ht', hreq', -, hseen', -⟩ :=
      advance_spec (decide (m + 1 < 2)) hreq hsettled.seen' [] (by simp)
    rw [if_neg (Nat.succ_ne_zero k)]
    -- The last one in the previous epoch handles the orphans first, then advances the epoch.
    by_cases hone : k + 1 = 1
    · have hk : k = 0 := by omega
      subst hk
      simp only [hremove, true_and, decide_true, if_true, Nat.succ_eq_add_one, zero_add,
        decThreadCountThreadsInPreviousEpochMaybeAdvance,
        incEpochDecThreadCountResetPrevious_pack e hn', ok_bind]
      by_cases hprepared : (!prepared) = true
      · rw [if_pos hprepared]
        refine ⟨.quiet hword ?_ ?_ ?_, hreq.previous, hreq.current, hreq.deferred⟩
        · simp only [hpc, Pc.counted]
        · simp only [hpc, Pc.changing]
        · exact ⟨hw, ⟨hsettled.passed, hsettled.notPassed, hsettled.seen⟩,
            e, m + 1, 1, rfl, hp', hn', hn1, .inr ⟨hnot, hw, rfl, hp1⟩⟩
      · rw [if_neg hprepared]
        by_cases hcas : q.state = pack e (m + 1) 1 ∧ (!spurious) = true
        · obtain ⟨-, rfl, rfl⟩ := pack_inj hn hp hn' hp' (hword.symm.trans hcas.1)
          rw [if_pos hcas, ht', ok_bind]
          exact ⟨.advancesAndLeaves rfl hw rfl hcounted rfl ⟨rfl, hseen'⟩, hreq'.previous,
            hreq'.current, hreq'.deferred⟩
        · rw [if_neg hcas]
          exact hretry
    · simp only [hremove, true_and, hone, decide_false, Bool.false_eq_true, false_and, if_false,
        if_true, Nat.succ_eq_add_one, decThreadCountThreadsInPreviousEpochMaybeAdvance,
        decThreadCountAndThreadsInPreviousEpoch_pack e hn' (Nat.le_of_succ_le_succ hp'), ok_bind]
      by_cases hcas : q.state = pack e (m + 1) (k + 1) ∧ (!spurious) = true
      · obtain ⟨-, rfl, rfl⟩ := pack_inj hn hp hn' hp' (hword.symm.trans hcas.1)
        rw [if_pos hcas, ht', ok_bind]
        exact ⟨.leavesUnpassed rfl hw (by omega) hcounted hchanging rfl rfl, hreq'.previous,
          hreq'.current, hreq'.deferred⟩
      · rw [if_neg hcas]
        exact hretry

omit hp hn in
include hword hreq in
theorem unregisterBumpStore_ok {e : Epoch} {single : Bool} {count : Nat}
    (hpc : t.pc = .unregisterBumpStore e single count) (hok : PcOk g p w t) :
    StepOk g n p w t (.ok ({ q with epochChangeCount := count + 1 },
      { t.executePreviousRequests single (e.advance 1) [] with pc := .orphanLoad .previous },
      .nothing)) := by
  simp only [PcOk, hpc] at hok
  obtain ⟨hw, hepoch⟩ := hok
  have hadv : t.lastSeenEpoch.advance 1 = e.advance 1 := by rw [hepoch]
  have hreq' := hreq.execute single [] (by simp) hadv
  exact ⟨.quiet hword (by rw [hpc]; rfl) (by rw [hpc]; rfl) hw, hreq'.previous, hreq'.current,
    hreq'.deferred⟩

/-- The end of `add_to_orphan_list` for a list. -/
theorem afterOrphan_ok {q' : Qsbr} (list : Interval) (hword : q'.state = pack g n p)
    (hreq : RequestsOk t)
    (hpc : t.pc = .orphanLoad list ∨ t.pc = .orphanCas list) (hw : w = false)
    (hempty : t.requests list = []) (hprevious : list = .current →
      t.previousIntervalDeallocRequests = [] ∧ t.previousIntervalOrphanListNode = none) :
    StepOk g n p w t (do return (q', ← (t.releaseNode list).afterOrphan list, .nothing)) := by
  have hcounted : t.pc.counted = false := by rcases hpc with h | h <;> rw [h] <;> rfl
  have hchanging : t.pc.changing = false := by rcases hpc with h | h <;> rw [h] <;> rfl
  cases list with
  | previous =>
    exact ⟨.quiet hword (by rw [hcounted]; rfl) (by rw [hchanging]; rfl) ⟨hw, hempty, rfl⟩,
      hreq.previous, hreq.current, hreq.deferred⟩
  | current =>
    obtain ⟨hrequests, hnode⟩ := hprevious rfl
    have hnodes : (t.releaseNode .current).previousIntervalOrphanListNode = none ∧
        (t.releaseNode .current).currentIntervalOrphanListNode = none := ⟨hnode, rfl⟩
    have hboth : (t.releaseNode .current).previousIntervalDeallocRequests = [] ∧
        (t.releaseNode .current).currentIntervalDeallocRequests = [] := ⟨hrequests, hempty⟩
    rw [QsbrPerThread.afterOrphan, assertThat_pos hnodes, ok_bind, assertThat_pos hboth, ok_bind]
    exact ⟨.quiet hword (by rw [hcounted]; rfl) (by rw [hchanging]; rfl) ⟨hw, hrequests, hempty⟩,
      hreq.previous, hreq.current, hreq.deferred⟩

omit hp hn in
include hword hreq in
theorem orphanLoad_ok {list : Interval} (hpc : t.pc = .orphanLoad list) (hok : PcOk g p w t) :
    StepOk g n p w t (q.orphanLoad t list) := by
  have hw : w = false := by
    cases list with
    | previous => simpa only [PcOk, hpc] using hok
    | current =>
      simp only [PcOk, hpc] at hok
      exact hok.1
  have hprevious : list = .current →
      t.previousIntervalDeallocRequests = [] ∧ t.previousIntervalOrphanListNode = none := by
    rintro rfl
    simp only [PcOk, hpc] at hok
    exact hok.2
  unfold Qsbr.orphanLoad
  cases hnode : t.orphanListNode list with
  | none => exact ⟨rfl, by rw [hpc]; rfl⟩
  | some i =>
    by_cases hempty : t.requests list = []
    · simp only [hempty, if_true]
      exact afterOrphan_ok list hword hreq (.inl hpc) hw hempty hprevious
    · simp only [hempty, if_false]
      cases list with
      | previous =>
        exact ⟨.quiet hword (by rw [hpc]; rfl) (by rw [hpc]; rfl) ⟨hw, rfl⟩, by simp
          [QsbrPerThread.clearRequests], hreq.current, hreq.deferred⟩
      | current =>
        obtain ⟨hrequests, hnone⟩ := hprevious rfl
        exact ⟨.quiet hword (by rw [hpc]; rfl) (by rw [hpc]; rfl) ⟨hw, hrequests, hnone, rfl⟩,
          hreq.previous, by simp [QsbrPerThread.clearRequests], hreq.deferred⟩

omit hp hn in
include hword hreq in
theorem orphanCas_ok {list : Interval} (hpc : t.pc = .orphanCas list) (hok : PcOk g p w t) :
    StepOk g n p w t (q.orphanCas t list spurious) := by
  have hok' := hok
  have hw : w = false := by
    cases list <;> simp only [PcOk, hpc] at hok <;> exact hok.1
  have hempty : t.requests list = [] := by
    cases list with
    | previous =>
      simp only [PcOk, hpc] at hok
      exact hok.2
    | current =>
      simp only [PcOk, hpc] at hok
      exact hok.2.2.2
  have hprevious : list = .current →
      t.previousIntervalDeallocRequests = [] ∧ t.previousIntervalOrphanListNode = none := by
    rintro rfl
    simp only [PcOk, hpc] at hok
    exact ⟨hok.2.1, hok.2.2.1⟩
  unfold Qsbr.orphanCas
  cases hnode : t.orphanListNode list with
  | none => exact ⟨rfl, by rw [hpc]; rfl⟩
  | some i =>
    simp only [Qsbr.node]
    split
    · rw [ok_bind]
      split
      · refine afterOrphan_ok list ?_ hreq (.inr hpc) hw hempty hprevious
        cases list <;> exact hword
      · exact ⟨.quiet hword rfl rfl hok', hreq⟩
    · exact ⟨rfl, by rw [hpc]; rfl⟩

include hword hp hn hreq in
/-- Every step of a running call. -/
theorem go_ok (hok : PcOk g p w t) (hpos : w = true → 0 < p)
    (hlt : t.pc.counted = true → w = false → p < n) (hroom : t.pc.counted = false → n + 1 < 2 ^ 30) :
    StepOk g n p w t (q.go t spurious) := by
  unfold Qsbr.go
  cases hdeferred : t.deferred with
  | cons d rest =>
    have hasserted := hreq.deferred d (by rw [hdeferred]; exact List.mem_cons_self)
    have hrest : ∀ d ∈ rest, d.asserted = true := by
      intro d hd
      exact hreq.deferred d (by rw [hdeferred]; exact List.mem_cons_of_mem _ hd)
    simp only [assertThat_pos hasserted, ok_bind]
    exact ⟨.quiet hword rfl rfl (hok.setDeferred rest), hreq.previous, hreq.current, hrest⟩
  | nil =>
    -- The steps that only load the state word or the counter.
    have hload : ∀ (pc : Pc), pc.counted = t.pc.counted → pc.changing = t.pc.changing →
        PcOk g p w { t with pc } →
        StepOk g n p w t (.ok (q, { t with pc, deferred := [] }, .nothing)) := by
      intro pc hcounted hchanging hok'
      exact ⟨.quiet hword hcounted hchanging (hok'.setDeferred []), hreq.previous, hreq.current,
        by simp⟩
    have hok' := hok
    cases hpc : t.pc with
    | paused => exact ⟨.quiet hword rfl rfl hok, hreq⟩
    | registerLoad =>
      simp only [PcOk, hpc] at hok'
      exact hload (.registerCas q.state) (by rw [hpc]; rfl) (by rw [hpc]; rfl)
        ⟨hok'.1, hok'.2, g, n, p, hword, hp, hroom (by rw [hpc]; rfl)⟩
    | registerCas oldState =>
      exact registerCas_ok spurious hword hp hn hreq hpc hok (hroom (by rw [hpc]; rfl))
    | registerSpin oldEpoch => exact registerSpin_ok hword hp hn hreq hpc hok
    | idle => exact ⟨.quiet hword rfl rfl hok, hreq⟩
    | deallocateLoad pointer => exact deallocateLoad_ok hword hp hn hreq hpc hok
    | quiescentLoad => exact quiescentLoad_ok hword hp hn hreq hpc hok
    | removeFetchSub e single => exact removeFetchSub_ok hword hp hn hreq hpc hok hpos
    | handleOrphans stage single caller => exact handleOrphans_ok hword hreq hpc hok
    | changeLoad e single =>
      simp only [PcOk, hpc] at hok'
      obtain ⟨hw, rfl, rfl, hquiescent, hepoch, hstates⟩ := hok'
      exact hload (.changeCas e single q.state) (by rw [hpc]; rfl) (by rw [hpc]; rfl)
        ⟨hw, rfl, rfl, ⟨hquiescent, hepoch, hstates⟩, n, hword, hn⟩
    | changeCas e single word => exact changeCas_ok spurious hword hp hn hreq hpc hok
    | changeBumpLoad e single =>
      simp only [PcOk, hpc] at hok'
      obtain ⟨hw, he, hquiescent, hepoch, hstates⟩ := hok'
      exact hload (.changeBumpStore e single q.epochChangeCount) (by rw [hpc]; rfl)
        (by rw [hpc]; rfl) ⟨hw, he, hquiescent, hepoch, hstates⟩
    | changeBumpStore e single count => exact changeBumpStore_ok hword hreq hpc hok
    | unregisterLoad =>
      simp only [PcOk, hpc] at hok'
      have hloaded := hok'.loaded hp hn hpos (hlt (by rw [hpc]; rfl))
      refine hload (.unregisterTry q.state false) (by rw [hpc]; rfl) (by rw [hpc]; rfl) ?_
      rw [hword]
      exact ⟨⟨hok'.passed, hok'.notPassed, hok'.seen⟩, hloaded⟩
    | unregisterTry word prepared =>
      exact unregisterTry_ok spurious hword hp hn hreq hpc hok hpos (hlt (by rw [hpc]; rfl))
    | unregisterBumpLoad e single =>
      simp only [PcOk, hpc] at hok'
      exact hload (.unregisterBumpStore e single q.epochChangeCount) (by rw [hpc]; rfl)
        (by rw [hpc]; rfl) hok'
    | unregisterBumpStore e single count => exact unregisterBumpStore_ok hword hreq hpc hok
    | orphanLoad list => exact orphanLoad_ok hword hreq hpc hok
    | orphanCas list => exact orphanCas_ok spurious hword hreq hpc hok

end Step

end Unodb
