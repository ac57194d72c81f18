import Mathlib.Logic.Relation

/-!
# Programs of atomic actions

A thread is a program whose actions on a shared state are atomic; between two of them the other
threads may act.  The environment chooses the outcome of what is not determined, such as whether
memory is left.  `Safe` is a rely-guarantee judgement: the program keeps an invariant and does in
every action only what its thread may do, provided the other threads do the same.
-/

/-- A program with shared state `σ`, choices `χ` and exceptions `ε`.  An action that has no outcome
    waits. -/
inductive Prog (σ χ ε : Type) (α : Type) : Type 1 where
  | ret (a : α)
  | throw (e : ε)
  | atomic {β : Type} (f : χ → σ → Option (β × σ)) (k : β → Prog σ χ ε α)

namespace Prog

variable {σ χ ε α β : Type}

/-- What the program has thrown, if it has. -/
def thrown : Prog σ χ ε α → Option ε
  | .throw e => some e
  | .ret _ | .atomic _ _ => none

theorem eq_throw {p : Prog σ χ ε α} {e : ε} (h : p.thrown = some e) : p = .throw e := by
  cases p with
  | throw e' => rw [Option.some.inj h]
  | ret | atomic => cases h

/-- One program after another. -/
def bind : Prog σ χ ε α → (α → Prog σ χ ε β) → Prog σ χ ε β
  | .ret a, k => k a
  | .throw e, _ => .throw e
  | .atomic f k, k' => .atomic f fun b => (k b).bind k'

instance : Monad (Prog σ χ ε) where
  pure := .ret
  bind := bind

/-- An action that in some state has no outcome. -/
def Waits {β : Type} (f : χ → σ → Option (β × σ)) : Prop := ∃ c s, f c s = none

/-- A single action. -/
def action (f : χ → σ → Option (β × σ)) : Prog σ χ ε β := .atomic f .ret

/-- A computation that does not use the shared state. -/
def lift : Except ε α → Prog σ χ ε α
  | .ok a => .ret a
  | .error e => .throw e

/-- A program that no other thread disturbs: its result and the state after it, or `none` if it
    comes to wait for itself. -/
def exec : Prog σ χ ε α → (Nat → χ) → σ → Option (Except ε α × σ)
  | .ret a, _, s => some (.ok a, s)
  | .throw e, _, s => some (.error e, s)
  | .atomic f k, choices, s =>
    match f (choices 0) s with
    | none => none
    | some (b, s') => (k b).exec (fun i => choices (i + 1)) s'

theorem pure_eq (a : α) : (Pure.pure a : Prog σ χ ε α) = .ret a := rfl

theorem bind_eq (p : Prog σ χ ε α) (k : α → Prog σ χ ε β) : p >>= k = p.bind k := rfl

@[simp] theorem ret_bind (a : α) (k : α → Prog σ χ ε β) : (Prog.ret a : Prog σ χ ε α) >>= k = k a := rfl

@[simp] theorem throw_bind (e : ε) (k : α → Prog σ χ ε β) :
    (Prog.throw e : Prog σ χ ε α) >>= k = .throw e := rfl

theorem bind_assoc {γ : Type} (p : Prog σ χ ε α) (k : α → Prog σ χ ε β) (k' : β → Prog σ χ ε γ) :
    p >>= k >>= k' = p >>= fun a => k a >>= k' := by
  rw [bind_eq, bind_eq, bind_eq]
  induction p with
  | ret a => rfl
  | throw e => rfl
  | atomic f k0 ih => exact congrArg (Prog.atomic f) (funext ih)

@[simp] theorem lift_ok (a : α) : (lift (.ok a) : Prog σ χ ε α) = .ret a := rfl

/-- One choice before others. -/
def before (c : χ) (choices : Nat → χ) : Nat → χ
  | 0 => c
  | i + 1 => choices i

/-- Alone the program comes from one state to another with this result, whatever is chosen. -/
def Yields (p : Prog σ χ ε α) (s : σ) (r : Except ε α) (s' : σ) : Prop :=
  ∀ choices, p.exec choices s = some (r, s')

namespace Yields

variable {p : Prog σ χ ε α} {k : α → Prog σ χ ε β} {s s' s'' : σ} {a : α} {e : ε}
  {r : Except ε β}

theorem ret (a : α) (s : σ) : (Prog.ret a : Prog σ χ ε α).Yields s (.ok a) s := fun _ => rfl

theorem throw (e : ε) (s : σ) : (Prog.throw e : Prog σ χ ε α).Yields s (.error e) s := fun _ => rfl

theorem lift (x : Except ε α) (s : σ) : (Prog.lift x : Prog σ χ ε α).Yields s x s := by
  cases x with
  | ok a => exact ret a s
  | error e => exact throw e s

theorem action {f : χ → σ → Option (α × σ)} (h : ∀ c, f c s = some (a, s')) :
    (Prog.action f : Prog σ χ ε α).Yields s (.ok a) s' := by
  intro choices
  rw [Prog.action, exec, h]
  rfl

theorem of_atomic {γ : Type} {f : χ → σ → Option (γ × σ)} {k : γ → Prog σ χ ε α} {b : γ} {c : χ}
    {r : Except ε α} (h : (Prog.atomic f k).Yields s r s'') (hf : f c s = some (b, s')) :
    (k b).Yields s' r s'' := by
  intro choices
  have hexec := h (before c choices)
  rw [exec, show before c choices 0 = c from rfl, hf] at hexec
  exact hexec

/-- A program that returns, and the rest. -/
theorem bind (hp : p.Yields s (.ok a) s') (hk : (k a).Yields s' r s'') :
    (p >>= k).Yields s r s'' := by
  rw [bind_eq]
  intro choices
  induction p generalizing s choices with
  | ret a' =>
    cases hp choices
    exact hk choices
  | throw e => cases hp choices
  | atomic f k' ih =>
    have hexec := hp choices
    rw [exec] at hexec
    rw [Prog.bind, exec]
    cases hf : f (choices 0) s with
    | none =>
      rw [hf] at hexec
      cases hexec
    | some bs => exact ih bs.1 (of_atomic hp hf) _

/-- A program that ends with an exception, which the rest does not see. -/
theorem bind_error (hp : p.Yields s (.error e) s') : (p >>= k).Yields s (.error e) s' := by
  rw [bind_eq]
  intro choices
  induction p generalizing s choices with
  | ret a => cases hp choices
  | throw e' =>
    cases hp choices
    rfl
  | atomic f k' ih =>
    have hexec := hp choices
    rw [exec] at hexec
    rw [Prog.bind, exec]
    cases hf : f (choices 0) s with
    | none =>
      rw [hf] at hexec
      cases hexec
    | some bs => exact ih bs.1 (of_atomic hp hf) _

end Yields

/-- Alone the program comes to its end as the postconditions say, whatever is chosen among what `P`
    allows. -/
def Ends (P : χ → Prop) (Q : α → σ → Prop) (E : ε → σ → Prop) : Prog σ χ ε α → σ → Prop
  | .ret a, s => Q a s
  | .throw e, s => E e s
  | .atomic f k, s => ∀ c, P c → ∃ b s', f c s = some (b, s') ∧ Ends P Q E (k b) s'

namespace Ends

variable {P : χ → Prop} {Q Q' : α → σ → Prop} {E E' : ε → σ → Prop} {p : Prog σ χ ε α}
  {s s' : σ} {a : α} {R : β → σ → Prop} {k : α → Prog σ χ ε β}

theorem mono (h : p.Ends P Q E s) (hQ : ∀ a s, Q a s → Q' a s) (hE : ∀ e s, E e s → E' e s) :
    p.Ends P Q' E' s := by
  induction p generalizing s with
  | ret a => exact hQ a s h
  | throw e => exact hE e s h
  | atomic f k ih =>
    intro c hc
    obtain ⟨b, s', hf, hk⟩ := h c hc
    exact ⟨b, s', hf, ih b hk⟩

theorem bind (h : p.Ends P (fun a s => (k a).Ends P R E s) E s) : (p >>= k).Ends P R E s := by
  rw [bind_eq]
  induction p generalizing s with
  | ret a => exact h
  | throw e => exact h
  | atomic f k' ih =>
    intro c hc
    obtain ⟨b, s', hf, hk⟩ := h c hc
    exact ⟨b, s', hf, ih b hk⟩

/-- A program whose end does not depend on what is chosen. -/
theorem of_yields [Nonempty χ] (h : p.Yields s (.ok a) s') (hQ : Q a s') : p.Ends P Q E s := by
  obtain ⟨c₀⟩ := ‹Nonempty χ›
  induction p generalizing s with
  | ret a' =>
    cases h fun _ => c₀
    exact hQ
  | throw e => cases h fun _ => c₀
  | atomic f k ih =>
    intro c _
    have hexec := h fun _ => c
    rw [exec] at hexec
    cases hf : f c s with
    | none =>
      rw [hf] at hexec
      cases hexec
    | some bs => exact ⟨bs.1, bs.2, rfl, ih bs.1 (Yields.of_atomic h hf)⟩

/-- A program whose end does not depend on what is chosen, and the rest. -/
theorem step [Nonempty χ] (hp : p.Yields s (.ok a) s') (hk : (k a).Ends P R E s') :
    (p >>= k).Ends P R E s :=
  bind (of_yields hp hk)

/-- A program that always ends with one exception, and the rest. -/
theorem fail [Nonempty χ] {e : ε} (hp : p.Yields s (.error e) s') (hE : E e s') :
    (p >>= k).Ends P R E s := by
  obtain ⟨c₀⟩ := ‹Nonempty χ›
  rw [bind_eq]
  induction p generalizing s with
  | ret a' => cases hp fun _ => c₀
  | throw e =>
    cases hp fun _ => c₀
    exact hE
  | atomic f k' ih =>
    intro c _
    have hexec := hp fun _ => c
    rw [Prog.exec] at hexec
    cases hf : f c s with
    | none =>
      rw [hf] at hexec
      cases hexec
    | some bs => exact ⟨bs.1, bs.2, rfl, ih bs.1 (Yields.of_atomic hp hf)⟩

theorem exec (h : p.Ends P Q E s) (choices : Nat → χ) (hchoices : ∀ i, P (choices i)) :
    ∃ r s', p.exec choices s = some (r, s') ∧ (∀ a, r = .ok a → Q a s') ∧
      ∀ e, r = .error e → E e s' := by
  induction p generalizing s choices with
  | ret a =>
    refine ⟨.ok a, s, rfl, ?_, ?_⟩
    · rintro _ ⟨⟩
      exact h
    · rintro _ ⟨⟩
  | throw e =>
    refine ⟨.error e, s, rfl, ?_, ?_⟩
    · rintro _ ⟨⟩
    · rintro _ ⟨⟩
      exact h
  | atomic f k ih =>
    obtain ⟨b, s', hf, hk⟩ := h (choices 0) (hchoices 0)
    rw [Prog.exec, hf]
    exact ih b hk _ fun i => hchoices (i + 1)

end Ends

/-- No action of the program changes the state. -/
def Reads : Prog σ χ ε α → Prop
  | .ret _ => True
  | .throw _ => True
  | .atomic f k => (∀ c s b s', f c s = some (b, s') → s' = s) ∧ ∀ b, Reads (k b)

namespace Reads

variable {p q : Prog σ χ ε α} {k : α → Prog σ χ ε β} {a : α} {e : ε}

theorem ret : (Prog.ret a : Prog σ χ ε α).Reads := trivial

theorem throw : (Prog.throw e : Prog σ χ ε α).Reads := trivial

theorem action {f : χ → σ → Option (α × σ)} (hf : ∀ c s b s', f c s = some (b, s') → s' = s) :
    (Prog.action f : Prog σ χ ε α).Reads :=
  ⟨hf, fun _ => trivial⟩

theorem lift {x : Except ε α} : (Prog.lift x : Prog σ χ ε α).Reads := by
  cases x with
  | ok a => exact ret
  | error e => exact throw

theorem ite {c : Prop} [Decidable c] (hp : p.Reads) (hq : q.Reads) :
    (if c then p else q).Reads := by
  split
  · exact hp
  · exact hq

theorem bind (hp : p.Reads) (hk : ∀ a, (k a).Reads) : (p >>= k).Reads := by
  rw [bind_eq]
  induction p with
  | ret a => exact hk a
  | throw e => exact throw
  | atomic f k' ih => exact ⟨hp.1, fun b => ih b (hp.2 b)⟩

end Reads

end Prog

/-- What the threads `τ` agree on: an invariant of the shared state, which may be seen with more
    than the programs see of it, what a thread does in one action, what it relies on when others
    act, where it may come to an action that waits, and where it may find such an action without
    an outcome.  `solo` says that there are no other threads. -/
structure Discipline (σ τ W : Type) where
  state : W → σ
  inv : W → Prop
  guar : τ → W → W → Prop
  rely : τ → W → W → Prop
  mayWait : τ → W → Prop
  blocked : τ → W → Prop
  solo : Prop

namespace Discipline

variable {σ χ ε α β τ W : Type} {D : Discipline σ τ W} {t : τ} {w w' w'' : W}
  {Q Q' : α → W → Prop} {E E' : ε → W → Prop}

/-- The other threads have acted any number of times. -/
def Later (D : Discipline σ τ W) (t : τ) : W → W → Prop :=
  Relation.ReflTransGen fun w w' => ¬ D.solo ∧ D.rely t w w' ∧ D.inv w'

/-- The program may run from here as the program of thread `t`. -/
def Safe (D : Discipline σ τ W) (t : τ) (Q : α → W → Prop) (E : ε → W → Prop) :
    Prog σ χ ε α → W → Prop
  | .ret a, w => ∀ w', D.Later t w w' → D.inv w' → Q a w'
  | .throw e, w => ∀ w', D.Later t w w' → D.inv w' → E e w'
  | .atomic f k, w => ∀ w', D.Later t w w' → D.inv w' → (Prog.Waits f → D.mayWait t w') ∧ ∀ c,
      (f c (D.state w') = none → ¬ D.solo ∧ D.blocked t w') ∧
      ∀ b s, f c (D.state w') = some (b, s) →
        ∃ w'', D.state w'' = s ∧ D.inv w'' ∧ D.guar t w' w'' ∧ D.Safe t Q E (k b) w''

/-! ## 1. Interference -/

theorem Later.refl (w : W) : D.Later t w w := Relation.ReflTransGen.refl

theorem Later.trans (h : D.Later t w w') (h' : D.Later t w' w'') : D.Later t w w'' :=
  Relation.ReflTransGen.trans h h'

/-- Alone, nothing happens between two actions. -/
theorem Later.eq_of_solo (h : D.Later t w w') (hsolo : D.solo) : w' = w := by
  induction h with
  | refl => rfl
  | tail _ hstep _ => exact absurd hsolo hstep.1

/-- What the action of any other thread keeps is kept. -/
theorem Later.keeps {F : W → Prop}
    (hF : ∀ {w w'}, D.inv w → D.rely t w w' → D.inv w' → F w → F w')
    (hinv : D.inv w) (h : D.Later t w w') (hw : F w) : F w' := by
  have hboth : D.inv w' ∧ F w' := by
    induction h with
    | refl => exact ⟨hinv, hw⟩
    | tail _ hstep ih =>
      obtain ⟨-, hrely, hinv'⟩ := hstep
      exact ⟨hinv', hF ih.1 hrely hinv' ih.2⟩
  exact hboth.2

theorem Later.inv (hinv : D.inv w) (h : D.Later t w w') : D.inv w' := by
  induction h with
  | refl => exact hinv
  | tail _ hstep _ =>
    exact hstep.2.2

/-! ## 2. Rules -/

theorem Safe.later {p : Prog σ χ ε α} (h : D.Safe t Q E p w) (hw : D.Later t w w') :
    D.Safe t Q E p w' := by
  cases p with
  | ret a => exact fun w'' hw'' => h w'' (hw.trans hw'')
  | throw e => exact fun w'' hw'' => h w'' (hw.trans hw'')
  | atomic f k => exact fun w'' hw'' => h w'' (hw.trans hw'')

theorem Safe.mono_of_inv {p : Prog σ χ ε α} (h : D.Safe t Q E p w)
    (hQ : ∀ a w, D.inv w → Q a w → Q' a w) (hE : ∀ e w, D.inv w → E e w → E' e w) :
    D.Safe t Q' E' p w := by
  induction p generalizing w with
  | ret a => exact fun w' hw' hinv => hQ a w' hinv (h w' hw' hinv)
  | throw e => exact fun w' hw' hinv => hE e w' hinv (h w' hw' hinv)
  | atomic f k ih =>
    intro w' hw' hinv
    obtain ⟨hwaits, hnext⟩ := h w' hw' hinv
    refine ⟨hwaits, fun c => ⟨(hnext c).1, fun b s hf => ?_⟩⟩
    obtain ⟨w'', hs, hinv'', hguar, hk⟩ := (hnext c).2 b s hf
    exact ⟨w'', hs, hinv'', hguar, ih b hk⟩

theorem Safe.mono {p : Prog σ χ ε α} (h : D.Safe t Q E p w) (hQ : ∀ a w, Q a w → Q' a w)
    (hE : ∀ e w, E e w → E' e w) : D.Safe t Q' E' p w :=
  h.mono_of_inv (fun a w _ => hQ a w) fun e w _ => hE e w

/-- A program may run if it may run wherever the other threads lead. -/
theorem Safe.of_later {p : Prog σ χ ε α} (h : ∀ w', D.Later t w w' → D.inv w' → D.Safe t Q E p w') :
    D.Safe t Q E p w := by
  cases p with
  | ret a => exact fun w' hw' hinv => h w' hw' hinv w' (.refl w') hinv
  | throw e => exact fun w' hw' hinv => h w' hw' hinv w' (.refl w') hinv
  | atomic f k => exact fun w' hw' hinv => h w' hw' hinv w' (.refl w') hinv

theorem Safe.bind {p : Prog σ χ ε α} {k : α → Prog σ χ ε β} {R : β → W → Prop}
    (h : D.Safe t (fun a w' => D.Safe t R E (k a) w') E p w) : D.Safe t R E (p >>= k) w := by
  rw [Prog.bind_eq]
  induction p generalizing w with
  | ret a => exact Safe.of_later h
  | throw e => exact h
  | atomic f k' ih =>
    intro w' hw' hinv
    obtain ⟨hwaits, hnext⟩ := h w' hw' hinv
    refine ⟨hwaits, fun c => ⟨(hnext c).1, fun b s hf => ?_⟩⟩
    obtain ⟨w'', hs, hinv'', hguar, hk⟩ := (hnext c).2 b s hf
    exact ⟨w'', hs, hinv'', hguar, ih b hk⟩

/-- An action and the rest of the program. -/
theorem Safe.action {f : χ → σ → Option (β × σ)} {k : β → Prog σ χ ε α}
    (h : ∀ w', D.Later t w w' → D.inv w' → (Prog.Waits f → D.mayWait t w') ∧ ∀ c,
      (f c (D.state w') = none → ¬ D.solo ∧ D.blocked t w') ∧
      ∀ b s, f c (D.state w') = some (b, s) →
        ∃ w'', D.state w'' = s ∧ D.inv w'' ∧ D.guar t w' w'' ∧ D.Safe t Q E (k b) w'') :
    D.Safe t Q E (Prog.action f >>= k) w := h

/-- A program that changes nothing keeps what the other threads leave alone. -/
theorem Safe.of_reads {p : Prog σ χ ε α} {F : W → Prop} (hp : p.Reads) (hsolo : ¬ D.solo)
    (hwait : ∀ t w, D.mayWait t w) (hblocked : ∀ t w, D.blocked t w)
    (hguar : ∀ w, D.guar t w w)
    (hF : ∀ {w w'}, D.inv w → D.rely t w w' → D.inv w' → F w → F w') (hinv : D.inv w) (hw : F w) :
    D.Safe t (fun _ w => F w) (fun _ w => F w) p w := by
  induction p generalizing w with
  | ret a => exact fun w' hlater _ => hlater.keeps hF hinv hw
  | throw e => exact fun w' hlater _ => hlater.keeps hF hinv hw
  | atomic f k ih =>
    intro w' hlater hinv'
    refine ⟨fun _ => hwait t w', fun c => ⟨fun _ => ⟨hsolo, hblocked t w'⟩, fun b s hf => ?_⟩⟩
    obtain rfl := hp.1 c _ b s hf
    exact ⟨w', rfl, hinv', hguar w', ih b (hp.2 b) hinv' (hlater.keeps hF hinv hw)⟩

/-! ## 3. Running -/

/-- The next action of a thread is as agreed, and it may go on. -/
theorem Safe.act {f : χ → σ → Option (β × σ)} {k : β → Prog σ χ ε α} {c : χ} {b : β} {s : σ}
    (h : D.Safe t Q E (.atomic f k) w) (hinv : D.inv w) (hf : f c (D.state w) = some (b, s)) :
    ∃ w', D.state w' = s ∧ D.inv w' ∧ D.guar t w w' ∧ D.Safe t Q E (k b) w' :=
  ((h w (.refl w) hinv).2 c).2 b s hf

/-- A thread comes to an action that waits only where it may. -/
theorem Safe.waits {f : χ → σ → Option (β × σ)} {k : β → Prog σ χ ε α}
    (h : D.Safe t Q E (.atomic f k) w) (hinv : D.inv w) (hf : Prog.Waits f) : D.mayWait t w :=
  (h w (.refl w) hinv).1 hf

theorem Safe.blocked {f : χ → σ → Option (β × σ)} {k : β → Prog σ χ ε α} {c : χ}
    (h : D.Safe t Q E (.atomic f k) w) (hinv : D.inv w) (hf : f c (D.state w) = none) :
    D.blocked t w :=
  (((h w (.refl w) hinv).2 c).1 hf).2

/-- A thread may go on after an action of another one. -/
theorem Safe.other {p : Prog σ χ ε α} (h : D.Safe t Q E p w) (hsolo : ¬ D.solo)
    (hrely : D.rely t w w') (hinv : D.inv w') : D.Safe t Q E p w' :=
  h.later (.single ⟨hsolo, hrely, hinv⟩)

/-- A program that runs alone comes to its end, action by action. -/
theorem Safe.exec {p : Prog σ χ ε α} (h : D.Safe t Q E p w) (hsolo : D.solo) (hinv : D.inv w)
    (choices : Nat → χ) :
    ∃ r w', p.exec choices (D.state w) = some (r, D.state w') ∧
      Relation.ReflTransGen (fun w w' => D.guar t w w' ∧ D.inv w') w w' ∧
      (∀ a, r = .ok a → Q a w') ∧ (∀ e, r = .error e → E e w') := by
  induction p generalizing w choices with
  | ret a =>
    refine ⟨.ok a, w, rfl, .refl, ?_, ?_⟩
    · rintro _ ⟨⟩
      exact h w (.refl w) hinv
    · rintro _ ⟨⟩
  | throw e =>
    refine ⟨.error e, w, rfl, .refl, ?_, ?_⟩
    · rintro _ ⟨⟩
    · rintro _ ⟨⟩
      exact h w (.refl w) hinv
  | atomic f k ih =>
    obtain ⟨hnone, hnext⟩ := (h w (.refl w) hinv).2 (choices 0)
    obtain ⟨⟨b, s⟩, hf⟩ := Option.ne_none_iff_exists'.mp fun hf => (hnone hf).1 hsolo
    obtain ⟨w1, hs, hinv1, hguar, hk⟩ := hnext b s hf
    obtain ⟨r, w', hexec, hreach, hQ, hE⟩ := ih b hk hinv1 fun i => choices (i + 1)
    refine ⟨r, w', ?_, hreach.head ⟨hguar, hinv1⟩, hQ, hE⟩
    rw [Prog.exec, hf]
    rw [hs] at hexec
    exact hexec

end Discipline
