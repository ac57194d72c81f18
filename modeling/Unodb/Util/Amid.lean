import Unodb.Util.Prog

/-!
# A program that reads what others change

The actions of the program leave the shared state as it is; between two of them the others may
change it.  What they may do there can depend on what is left of the program.
-/

/-- The program has come to its end. -/
def Prog.Over {σ χ ε α : Type} : Prog σ χ ε α → Prop
  | .ret _ | .throw _ => True
  | .atomic _ _ => False

/-- What is left of the program after so many actions in a state that they leave as it is. -/
def Prog.after {σ χ ε α : Type} (c : χ) (s : σ) : Nat → Prog σ χ ε α → Prog σ χ ε α
  | 0, p => p
  | _ + 1, .ret a => .ret a
  | _ + 1, .throw e => .throw e
  | n + 1, .atomic f k =>
    match f c s with
    | some (b, _) => after c s n (k b)
    | none => .atomic f k

/-- The states that a program runs in, seen as worlds that may record more than the program sees, with
    an invariant, and, for what is left of the program, the choices of the environment in its next action
    and what the others may do before. -/
structure Setting (σ χ ε α W : Type) where
  state : W → σ
  inv : W → Prop
  choices : Prog σ χ ε α → χ → Prop
  others : Prog σ χ ε α → W → W → Prop

namespace Setting

variable {σ χ ε α β W : Type} {S : Setting σ χ ε α W} {Q : α → W → Prop} {E : ε → W → Prop}
  {p : Prog σ χ ε α} {w w' : W}

/-- The others have acted any number of times. -/
def Later (S : Setting σ χ ε α W) (p : Prog σ χ ε α) : W → W → Prop :=
  Relation.ReflTransGen fun w w' => S.others p w w' ∧ S.inv w'

/-- From here the program comes to an end only as the postconditions say. -/
def Amid (S : Setting σ χ ε α W) (Q : α → W → Prop) (E : ε → W → Prop) :
    Prog σ χ ε α → W → Prop
  | .ret a, w => ∀ w', S.Later (.ret a) w w' → Q a w'
  | .throw e, w => ∀ w', S.Later (.throw e) w w' → E e w'
  | .atomic f k, w => ∀ w', S.Later (.atomic f k) w w' → ∀ c b s, S.choices (.atomic f k) c →
      f c (S.state w') = some (b, s) → s = S.state w' ∧ S.Amid Q E (k b) w'

/-- What every action of the others keeps is kept. -/
theorem Later.keeps {F : W → Prop}
    (hF : ∀ {w w'}, S.inv w → S.others p w w' → S.inv w' → F w → F w') (h : S.Later p w w')
    (hinv : S.inv w) (hw : F w) : S.inv w' ∧ F w' := by
  induction h with
  | refl => exact ⟨hinv, hw⟩
  | tail _ hstep ih => exact ⟨hstep.2, hF ih.1 hstep.1 hstep.2 ih.2⟩

/-- The program may go on after an action of the others. -/
theorem Amid.other (h : S.Amid Q E p w) (hothers : S.others p w w') (hinv : S.inv w') :
    S.Amid Q E p w' := by
  have hfirst : S.Later p w w' := .single ⟨hothers, hinv⟩
  cases p with
  | ret a => exact fun w'' hlater => h w'' (hfirst.trans hlater)
  | throw e => exact fun w'' hlater => h w'' (hfirst.trans hlater)
  | atomic f k => exact fun w'' hlater => h w'' (hfirst.trans hlater)

/-- The next action of the program. -/
theorem Amid.act {f : χ → σ → Option (β × σ)} {k : β → Prog σ χ ε α} {c : χ} {b : β} {s : σ}
    (h : S.Amid Q E (.atomic f k) w) (hc : S.choices (.atomic f k) c)
    (hf : f c (S.state w) = some (b, s)) : s = S.state w ∧ S.Amid Q E (k b) w :=
  h w .refl c b s hc hf

theorem Amid.of_ret {a : α} (h : S.Amid Q E (.ret a) w) : Q a w := h w .refl

theorem Amid.of_throw {e : ε} (h : S.Amid Q E (.throw e) w) : E e w := h w .refl

/-- Where the assertion holds, the program comes to an end only as the postconditions say. -/
def Holds (S : Setting σ χ ε α W) (Q : α → W → Prop) (E : ε → W → Prop) (F : W → Prop)
    (p : Prog σ χ ε α) : Prop := ∀ w, S.inv w → F w → S.Amid Q E p w

namespace Holds

variable {F G : W → Prop}

theorem of_imp (h : S.Holds Q E G p) (hFG : ∀ w, S.inv w → F w → G w) : S.Holds Q E F p :=
  fun w hinv hw => h w hinv (hFG w hinv hw)

theorem of_exists {ι : Type} {F : ι → W → Prop} (h : ∀ i, S.Holds Q E (F i) p) :
    S.Holds Q E (fun w => ∃ i, F i w) p :=
  fun w hinv ⟨i, hw⟩ => h i w hinv hw

theorem of_pure {P : Prop} (h : P → S.Holds Q E F p) : S.Holds Q E (fun w => P ∧ F w) p :=
  fun w hinv ⟨hP, hw⟩ => h hP w hinv hw

theorem ret {a : α} (hF : ∀ {w w'}, S.inv w → S.others (.ret a) w w' → S.inv w' → F w → F w')
    (hQ : ∀ w, S.inv w → F w → Q a w) : S.Holds Q E F (.ret a) := by
  intro w hinv hw w' hlater
  obtain ⟨hinv', hw'⟩ := hlater.keeps hF hinv hw
  exact hQ w' hinv' hw'

/-- An action that establishes `G` for its result, from an assertion that the others keep. -/
theorem atomic {G : β → W → Prop} {f : χ → σ → Option (β × σ)} {k : β → Prog σ χ ε α}
    (hF : ∀ {w w'}, S.inv w → S.others (.atomic f k) w w' → S.inv w' → F w → F w')
    (hf : ∀ w, S.inv w → F w → ∀ c b s, S.choices (.atomic f k) c → f c (S.state w) = some (b, s) →
      s = S.state w ∧ G b w)
    (hk : ∀ b, S.Holds Q E (G b) (k b)) : S.Holds Q E F (.atomic f k) := by
  intro w hinv hw w' hlater c b s hc hb
  obtain ⟨hinv', hw'⟩ := hlater.keeps hF hinv hw
  obtain ⟨hs, hG⟩ := hf w' hinv' hw' c b s hc hb
  exact ⟨hs, hk b w' hinv' hG⟩

end Holds

end Setting
