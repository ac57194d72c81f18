import Mathlib.Data.Finset.Card
import Mathlib.Data.List.ReduceOption
import Mathlib.Data.Set.Insert
import Unodb.Util.Runs

/-!
# Atomic objects

An object is atomic if every call takes effect at one instant between its start and its end.  It is
enough that a call that changes the object does so at such an instant, and that the response of any
other call was right at one: which one it was is chosen when the call returns.  A call may start over
as long as it has had no effect; what was right before does not count then.
-/

/-- What is seen of the calls `Q` of the threads `τ`, their responses `R` and exceptions `ε`. -/
inductive CallEvent (τ Q R ε : Type*) where
  | call (t : τ) (q : Q)
  | restart (t : τ)
  | ret (t : τ) (q : Q) (r : R)
  | raise (t : τ) (e : ε)
deriving DecidableEq

/-- An object and the threads that call it. -/
structure Shared (M τ C : Type*) where
  object : M
  caller : τ → C

namespace Shared

variable {M τ C : Type*} [DecidableEq τ] (s : Shared M τ C) (m : M) (t : τ) (c : C)

/-- The object and where one of the threads is. -/
def put : Shared M τ C := ⟨m, Function.update s.caller t c⟩

@[simp] theorem put_self : (s.put m t c).caller t = c := Function.update_self _ _ _

theorem put_of_ne {u : τ} (hu : u ≠ t) : (s.put m t c).caller u = s.caller u :=
  Function.update_of_ne hu _ _

@[simp] theorem put_put (m' : M) (c' : C) : (s.put m t c).put m' t c' = s.put m' t c' := by
  unfold put
  rw [Function.update_idem]

theorem put_eq (hm : m = s.object) (hc : c = s.caller t) : s.put m t c = s := by
  unfold put
  rw [hm, hc, Function.update_eq_self]

end Shared

namespace Atomic

variable {M τ Q R ε : Type*}

/-- Where a thread is in a call. -/
inductive Caller (Q R : Type*) where
  | idle
  | pending (q : Q)
  | done (q : Q) (r : R)

/-- Where a thread is in a call, with the responses that have been right since it began or started
    over and would have left the object as it was. -/
inductive Watched (Q R : Type*) where
  | idle
  | pending (q : Q) (seen : Set R)
  | done (q : Q) (r : R)

section Objects

variable [DecidableEq τ] (spec : Q → R → M → M → Prop)

/-- A step of an atomic object: a call takes effect as the specification says. -/
inductive Step (s : Shared M τ (Caller Q R)) : Option (CallEvent τ Q R ε) →
    Shared M τ (Caller Q R) → Prop where
  | call (t : τ) (q : Q) : s.caller t = .idle →
      Step s (some (.call t q)) (s.put s.object t (.pending q))
  | effect (t : τ) {q : Q} (r : R) (m : M) : s.caller t = .pending q → spec q r s.object m →
      Step s none (s.put m t (.done q r))
  | restart (t : τ) {q : Q} : s.caller t = .pending q →
      Step s (some (.restart t)) (s.put s.object t (.pending q))
  | ret (t : τ) {q : Q} {r : R} : s.caller t = .done q r →
      Step s (some (.ret t q r)) (s.put s.object t .idle)
  | raise (t : τ) {q : Q} (e : ε) : s.caller t = .pending q →
      Step s (some (.raise t e)) (s.put s.object t .idle)

/-- A step of an object of which it is only known that the responses that are returned have been
    right. -/
inductive Watch (s : Shared M τ (Watched Q R)) : Option (CallEvent τ Q R ε) →
    Shared M τ (Watched Q R) → Prop where
  | call (t : τ) (q : Q) : s.caller t = .idle →
      Watch s (some (.call t q)) (s.put s.object t (.pending q ∅))
  | saw (t : τ) {q : Q} {seen : Set R} (r : R) : s.caller t = .pending q seen →
      spec q r s.object s.object → Watch s none (s.put s.object t (.pending q (insert r seen)))
  | effect (t : τ) {q : Q} {seen : Set R} (r : R) (m : M) : s.caller t = .pending q seen →
      spec q r s.object m → Watch s none (s.put m t (.done q r))
  | restart (t : τ) {q : Q} {seen : Set R} : s.caller t = .pending q seen →
      Watch s (some (.restart t)) (s.put s.object t (.pending q ∅))
  | ret (t : τ) {q : Q} {seen : Set R} {r : R} : s.caller t = .pending q seen → r ∈ seen →
      Watch s (some (.ret t q r)) (s.put s.object t .idle)
  | done (t : τ) {q : Q} {r : R} : s.caller t = .done q r →
      Watch s (some (.ret t q r)) (s.put s.object t .idle)
  | raise (t : τ) {q : Q} {seen : Set R} (e : ε) : s.caller t = .pending q seen →
      Watch s (some (.raise t e)) (s.put s.object t .idle)

end Objects

/-- The call has not taken effect, or it has with one of the responses that have been right. -/
inductive Chooses : Watched Q R → Caller Q R → Prop where
  | idle : Chooses .idle .idle
  | pending (q : Q) (seen : Set R) : Chooses (.pending q seen) (.pending q)
  | chosen (q : Q) {seen : Set R} {r : R} : r ∈ seen → Chooses (.pending q seen) (.done q r)
  | done (q : Q) (r : R) : Chooses (.done q r) (.done q r)

theorem Chooses.of_pending {d : Watched Q R} {q : Q} {seen : Set R} (h : d = .pending q seen) :
    Chooses d (.pending q) := by
  rw [h]
  exact .pending q seen

theorem Chooses.idle_iff {d : Watched Q R} {c : Caller Q R} (h : Chooses d c) :
    c = .idle ↔ d = .idle := by
  cases h with
  | idle => exact iff_of_true rfl rfl
  | pending => exact iff_of_false (by rintro ⟨⟩) (by rintro ⟨⟩)
  | chosen => exact iff_of_false (by rintro ⟨⟩) (by rintro ⟨⟩)
  | done => exact iff_of_false (by rintro ⟨⟩) (by rintro ⟨⟩)

/-- The atomic object that the threads may have been using. -/
structure Explains (s : Shared M τ (Watched Q R)) (a : Shared M τ (Caller Q R)) : Prop where
  object : a.object = s.object
  caller : ∀ t, Chooses (s.caller t) (a.caller t)

/-- No thread is in a call. -/
def init (m : M) : Shared M τ (Caller Q R) := ⟨m, fun _ => .idle⟩

def watch (m : M) : Shared M τ (Watched Q R) := ⟨m, fun _ => .idle⟩

theorem Explains.eq_init {m : M} {a : Shared M τ (Caller Q R)} (h : Explains (watch m) a) :
    a = init m := by
  obtain ⟨object, caller⟩ := a
  obtain rfl : object = m := h.object
  have hcaller : caller = fun _ => .idle := by
    funext t
    have ht : Chooses .idle (caller t) := h.caller t
    generalize caller t = c at ht
    cases ht
    rfl
  rw [hcaller]
  rfl

/-- Some atomic object explains what is seen: no pending call need have taken effect. -/
theorem exists_explains (s : Shared M τ (Watched Q R)) : ∃ a, Explains s a := by
  have hcaller : ∀ t, ∃ c, Chooses (s.caller t) c := by
    intro t
    cases s.caller t with
    | idle => exact ⟨_, .idle⟩
    | pending q seen => exact ⟨_, .pending q seen⟩
    | done q r => exact ⟨_, .done q r⟩
  choose caller hchooses using hcaller
  exact ⟨⟨s.object, caller⟩, rfl, hchooses⟩

section Objects

variable [DecidableEq τ] {spec : Q → R → M → M → Prop} {s s' : Shared M τ (Watched Q R)}
  {a a' : Shared M τ (Caller Q R)} {t : τ} {d : Watched Q R} {c : Caller Q R} {m : M}

theorem Explains.at (h : Explains (s.put m t d) a) : Chooses d (a.caller t) := by
  have ht := h.caller t
  rwa [Shared.put_self] at ht

/-- Back to where the thread has been before a step. -/
theorem Explains.back (h : Explains (s.put m t d) a) (hc : Chooses (s.caller t) c) :
    Explains s (a.put s.object t c) := by
  refine ⟨rfl, fun u => ?_⟩
  by_cases hu : u = t
  · rw [hu, Shared.put_self]
    exact hc
  · have hchooses := h.caller u
    rw [Shared.put_of_ne _ _ _ _ hu] at hchooses ⊢
    exact hchooses

/-- A step seen from behind. -/
theorem Explains.before {o : Option (CallEvent τ Q R ε)} (h : Explains (s.put m t d) a)
    (hc : Chooses (s.caller t) c)
    (hstep : Step spec (a.put s.object t c) o ((a.put s.object t c).put m t (a.caller t))) :
    ∃ a' os, Explains s a' ∧ Run (Step spec) a' os a ∧ os.reduceOption = [o].reduceOption := by
  have hobject : m = a.object := h.object.symm
  rw [hobject, Shared.put_put, Shared.put_eq a _ t _ rfl rfl] at hstep
  exact ⟨_, [o], h.back hc, .cons hstep (.nil a), rfl⟩

/-- The response that has been chosen had been right before. -/
theorem Explains.same (h : Explains (s.put s.object t d) a)
    (hc : Chooses (s.caller t) (a.caller t)) :
    ∃ a' os, Explains s a' ∧ Run (Step (ε := ε) spec) a' os a ∧
      os.reduceOption = [none].reduceOption := by
  have hback := h.back hc
  have hobject : s.object = a.object := h.object.symm
  rw [hobject, Shared.put_eq a _ t _ rfl rfl] at hback
  exact ⟨a, [], hback, .nil a, rfl⟩

/-- A step at whose end the thread is in no call, seen from behind. -/
theorem Explains.left {o : Option (CallEvent τ Q R ε)}
    (h : Explains (s.put s.object t .idle) a) (hc : Chooses (s.caller t) c)
    (hstep : Step spec (a.put s.object t c) o ((a.put s.object t c).put s.object t .idle)) :
    ∃ a' os, Explains s a' ∧ Run (Step spec) a' os a ∧ os.reduceOption = [o].reduceOption := by
  refine h.before hc ?_
  rw [h.at.idle_iff.mpr rfl]
  exact hstep

/-- Every step that is seen is one of an atomic object, whichever responses are chosen later. -/
theorem Explains.step {o : Option (CallEvent τ Q R ε)} (hstep : Watch spec s o s')
    (h : Explains s' a') :
    ∃ a os, Explains s a ∧ Run (Step spec) a os a' ∧ os.reduceOption = [o].reduceOption := by
  cases hstep with
  | call t q hidle =>
    have hat := h.at
    have hback : Chooses (s.caller t) .idle := by
      rw [hidle]
      exact .idle
    generalize hc : a'.caller t = c at hat
    cases hat with
    | pending =>
      refine h.before hback ?_
      rw [hc]
      exact .call t q (Shared.put_self _ _ _ _)
    | chosen _ hr => exact absurd hr (Set.notMem_empty _)
  | @saw t q seen r hpending hspec =>
    have hat := h.at
    generalize hc : a'.caller t = c at hat
    cases hat with
    | pending => exact h.same (hc ▸ .of_pending hpending)
    | chosen _ hr =>
      rcases hr with rfl | hr
      · -- The call returns what is right now, so that it may take effect now.
        refine h.before (.of_pending hpending) ?_
        rw [hc]
        exact .effect t _ _ (Shared.put_self _ _ _ _) hspec
      · refine h.same ?_
        rw [hc, hpending]
        exact .chosen q hr
  | effect t r m hpending hspec =>
    have hat := h.at
    generalize hc : a'.caller t = c at hat
    cases hat with
    | done =>
      refine h.before (.of_pending hpending) ?_
      rw [hc]
      exact .effect t r m (Shared.put_self _ _ _ _) hspec
  | @restart t q seen hpending =>
    -- No response has been right since.
    have hat := h.at
    generalize hc : a'.caller t = c at hat
    cases hat with
    | pending =>
      refine h.before (.of_pending hpending) ?_
      rw [hc]
      exact .restart t (Shared.put_self _ _ _ _)
    | chosen _ hr => exact absurd hr (Set.notMem_empty _)
  | @ret t q seen r hpending hr =>
    -- This is where the response is chosen: it is one of those that have been right.
    have hback : Chooses (s.caller t) (.done q r) := by
      rw [hpending]
      exact .chosen q hr
    exact h.left hback (.ret t (Shared.put_self _ _ _ _))
  | @done t q r hdone =>
    have hback : Chooses (s.caller t) (.done q r) := by
      rw [hdone]
      exact .done q r
    exact h.left hback (.ret t (Shared.put_self _ _ _ _))
  | raise t e hpending =>
    exact h.left (.of_pending hpending) (.raise t e (Shared.put_self _ _ _ _))

/-- What is seen of a run is a run of an atomic object. -/
theorem Explains.run {os : List (Option (CallEvent τ Q R ε))} (hrun : Run (Watch spec) s os s')
    (h : Explains s' a') :
    ∃ a os', Explains s a ∧ Run (Step spec) a os' a' ∧ os'.reduceOption = os.reduceOption := by
  -- Backwards: what is chosen for the last step decides on the steps before it.
  induction hrun with
  | nil s => exact ⟨a', [], h, .nil a', rfl⟩
  | @cons s _ _ o os hstep _ ih =>
    obtain ⟨a, os₂, ha, hrun₂, hseen₂⟩ := ih h
    obtain ⟨a₀, os₁, ha₀, hrun₁, hseen₁⟩ := ha.step hstep
    refine ⟨a₀, os₁ ++ os₂, ha₀, hrun₁.append hrun₂, ?_⟩
    rw [List.reduceOption_append, hseen₁, hseen₂, ← List.reduceOption_append]
    rfl

theorem Explains.run_init {os : List (Option (CallEvent τ Q R ε))}
    (hrun : Run (Watch spec) (watch m) os s) (h : Explains s a) :
    ∃ os', Run (Step spec) (init m) os' a ∧ os'.reduceOption = os.reduceOption := by
  obtain ⟨a₀, os', ha₀, hrun', hseen⟩ := Explains.run hrun h
  rw [ha₀.eq_init] at hrun'
  exact ⟨os', hrun', hseen⟩

end Objects

/-! ## Counting effects -/

/-- The call has taken effect with such a response and has not returned. -/
def Caller.due (p : Q → R → Bool) : Caller Q R → Bool
  | .done q r => p q r
  | _ => false

/-- The event shows a call that returns with such a response. -/
def returns (p : Q → R → Bool) : CallEvent τ Q R ε → Bool
  | .ret _ q r => p q r
  | _ => false

/-- So many calls have taken effect with such a response, whether they have returned or not. -/
def Effects (os : List (Option (CallEvent τ Q R ε))) (s : Shared M τ (Caller Q R)) (p : Q → R → Bool)
    (n : Nat) : Prop :=
  ∃ due : Finset τ, (∀ t, t ∈ due ↔ (s.caller t).due p = true) ∧
    n = os.reduceOption.countP (returns p) + due.card

section Counting

variable [DecidableEq τ] {spec : Q → R → M → M → Prop} {s s' : Shared M τ (Caller Q R)} {m m' : M}
  {os : List (Option (CallEvent τ Q R ε))} {o : Option (CallEvent τ Q R ε)} {p : Q → R → Bool}
  {n : Nat}

/-- What one thread does to the number of effects. -/
theorem Effects.put {t : τ} {c : Caller Q R} (h : Effects os s p n) :
    ∃ n', Effects (os ++ [o]) (s.put m t c) p n' ∧ n' + ((s.caller t).due p).toNat =
      n + (c.due p).toNat + [o].reduceOption.countP (returns p) := by
  obtain ⟨due, hdue, rfl⟩ := h
  have hcount : (os ++ [o]).reduceOption.countP (returns p) =
      os.reduceOption.countP (returns p) + [o].reduceOption.countP (returns p) := by
    rw [List.reduceOption_append, List.countP_append]
  have hmem : ∀ u, u ≠ t → (u ∈ due ↔ ((s.put m t c).caller u).due p = true) := fun u hu => by
    rw [Shared.put_of_ne _ _ _ _ hu]
    exact hdue u
  have ht : t ∈ due ↔ (s.caller t).due p = true := hdue t
  cases hc : c.due p with
  | true =>
    refine ⟨_, ⟨insert t due, fun u => ?_, rfl⟩, ?_⟩
    · by_cases hu : u = t
      · rw [hu, Shared.put_self, hc]
        exact iff_of_true (Finset.mem_insert_self t due) rfl
      · rw [Finset.mem_insert, or_iff_right hu]
        exact hmem u hu
    · rw [hcount]
      cases hb : (s.caller t).due p with
      | true =>
        rw [Finset.insert_eq_of_mem (ht.mpr hb)]
        simp only [Bool.toNat_true]
        omega
      | false =>
        rw [Finset.card_insert_of_notMem fun hin => Bool.false_ne_true (hb.symm.trans (ht.mp hin))]
        simp only [Bool.toNat_true, Bool.toNat_false]
        omega
  | false =>
    refine ⟨_, ⟨due.erase t, fun u => ?_, rfl⟩, ?_⟩
    · by_cases hu : u = t
      · rw [hu, Shared.put_self, hc]
        exact iff_of_false (Finset.notMem_erase t due) Bool.false_ne_true
      · rw [Finset.mem_erase, and_iff_right hu]
        exact hmem u hu
    · rw [hcount]
      cases hb : (s.caller t).due p with
      | true =>
        have hcard := Finset.card_erase_add_one (ht.mpr hb)
        simp only [Bool.toNat_true, Bool.toNat_false]
        omega
      | false =>
        rw [Finset.erase_eq_of_notMem fun hin => Bool.false_ne_true (hb.symm.trans (ht.mp hin))]
        simp only [Bool.toNat_false]
        omega

/-- A step that takes effect counts if its response does; no other step changes the number. -/
theorem Effects.step (os : List (Option (CallEvent τ Q R ε))) (hstep : Step spec s o s') :
    (s'.object = s.object ∧ ∀ p n, Effects os s p n → Effects (os ++ [o]) s' p n) ∨
      ∃ q r, spec q r s.object s'.object ∧
        ∀ p n, Effects os s p n → Effects (os ++ [o]) s' p (n + (p q r).toNat) := by
  have hsame : ∀ {n n' : Nat} {p}, Effects (os ++ [o]) s' p n' → n' = n → Effects (os ++ [o]) s' p n :=
    fun h heq => heq ▸ h
  cases hstep with
  | call t q hidle =>
    refine .inl ⟨rfl, fun p n h => ?_⟩
    obtain ⟨n', hn', hcount⟩ := h.put
    refine hsame hn' ?_
    rw [hidle] at hcount
    exact hcount
  | effect t r m hpending hspec =>
    refine .inr ⟨_, r, hspec, fun p n h => ?_⟩
    obtain ⟨n', hn', hcount⟩ := h.put
    refine hsame hn' ?_
    rw [hpending] at hcount
    exact hcount
  | restart t hpending =>
    refine .inl ⟨rfl, fun p n h => ?_⟩
    obtain ⟨n', hn', hcount⟩ := h.put
    refine hsame hn' ?_
    rw [hpending] at hcount
    exact hcount
  | @ret t q r hdone =>
    refine .inl ⟨rfl, fun p n h => ?_⟩
    obtain ⟨n', hn', hcount⟩ := h.put
    refine hsame hn' ?_
    rw [hdone] at hcount
    have hone : [some (CallEvent.ret t q r : CallEvent τ Q R ε)].reduceOption.countP (returns p) =
        (p q r).toNat := by
      rw [List.reduceOption_singleton]
      show List.countP _ [CallEvent.ret t q r] = _
      rw [List.countP_singleton]
      show (if p q r = true then 1 else 0) = _
      cases p q r <;> rfl
    rw [hone] at hcount
    exact Nat.add_right_cancel hcount
  | raise t e hpending =>
    refine .inl ⟨rfl, fun p n h => ?_⟩
    obtain ⟨n', hn', hcount⟩ := h.put
    refine hsame hn' ?_
    rw [hpending] at hcount
    exact hcount

/-- What is in the object has been put there or was there, and has not been taken; if it was empty, a
    call that tries to put something there does, or finds that another one has. -/
theorem balance_of_run (c : M → Nat) (adds takes tries : Q → R → Bool)
    (hspec : ∀ {q r m m'}, spec q r m m' → c m' + (takes q r).toNat = c m + (adds q r).toNat)
    (htries : ∀ {q r m m'}, spec q r m m' → tries q r = true → adds q r = true ∨ 0 < c m)
    (hrun : Run (Step spec) (init m) os s) (hidle : ∀ t, s.caller t = .idle) :
    c s.object + os.reduceOption.countP (returns takes) =
        c m + os.reduceOption.countP (returns adds) ∧
      (c m = 0 → 0 < os.reduceOption.countP (returns tries) →
        0 < os.reduceOption.countP (returns adds)) := by
  have hzero : ∀ p, Effects ([] : List (Option (CallEvent τ Q R ε))) (init m) p 0 := fun p =>
    ⟨∅, fun t => iff_of_false (Finset.notMem_empty t) Bool.false_ne_true, rfl⟩
  obtain ⟨a, b, d, ha, hb, hd, heq, hsome⟩ : ∃ a b d, Effects os s adds a ∧ Effects os s takes b ∧
      Effects os s tries d ∧ c s.object + b = c m + a ∧ (c m = 0 → 0 < d → 0 < a) := by
    refine Run.invariant_with (I := fun os s => ∃ a b d, Effects os s adds a ∧ Effects os s takes b ∧
      Effects os s tries d ∧ c s.object + b = c m + a ∧ (c m = 0 → 0 < d → 0 < a)) ?_ hrun
      ⟨0, 0, 0, hzero _, hzero _, hzero _, rfl, fun _ h => h⟩
    rintro os s o s' ⟨a, b, d, ha, hb, hd, heq, hsome⟩ hstep
    rcases Effects.step os hstep with ⟨hobject, hkeep⟩ | ⟨q, r, heffect, hgain⟩
    · exact ⟨a, b, d, hkeep _ _ ha, hkeep _ _ hb, hkeep _ _ hd, by rw [hobject, heq], hsome⟩
    · refine ⟨_, _, _, hgain _ _ ha, hgain _ _ hb, hgain _ _ hd, ?_, fun hm hpos => ?_⟩
      · have := hspec heffect
        omega
      · by_cases htry : tries q r = true
        · rcases htries heffect htry with hadd | hc
          · rw [hadd]
            exact Nat.succ_pos a
          · omega
        · rw [Bool.not_eq_true] at htry
          rw [htry] at hpos
          exact Nat.add_pos_left (hsome hm hpos) _
  have hquiet : ∀ {p n}, Effects os s p n → n = os.reduceOption.countP (returns p) := by
    rintro p n ⟨due, hdue, rfl⟩
    have hnone : due = ∅ := Finset.eq_empty_of_forall_notMem fun t ht => by
      have := (hdue t).mp ht
      rw [hidle t] at this
      cases this
    rw [hnone]
    rfl
  rw [← hquiet ha, ← hquiet hb, ← hquiet hd]
  exact ⟨heq, hsome⟩

end Counting

end Atomic
