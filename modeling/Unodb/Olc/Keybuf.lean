import Unodb.Db.Scan
import Unodb.Olc.Alone

/-!
# The key buffer along the calls of an iterator

A `pop` takes a byte less from the key buffer than the `push` of the entry has put there, and the
`invalidate` of `olc_db` leaves the buffer as it is.
-/

namespace Unodb

namespace IterCall

open OlcDb

variable {κ : Type} [StoredKey κ]

/-- The operation of a call, which is none for `invalidate`. -/
def operation : IterCall κ → Option (IterOperation κ)
  | .move .first => some (.outermost true)
  | .move .last => some (.outermost false)
  | .move .next => some (.advance true)
  | .move .prior => some (.advance false)
  | .seek searchKey fwd => some (.seek searchKey fwd)
  | .invalidate => none

/-- A call of an iterator of `olc_db`. -/
def olcRun (fuel rounds : Nat) (it : OlcIterator) (call : IterCall κ) : OlcM sizes OlcIterator :=
  match call.operation with
  | some op => do
    let (it, _) ← op.run fuel (rounds + 1) it
    return it
  | none => return it.invalidate

/-- The call invalidates the iterator first. -/
def Invalidates : IterCall κ → Prop
  | .move .next | .move .prior => False
  | _ => True

/-- The calls of an iterator of `olc_db` that no thread disturbs. -/
theorem olcRun_simulates {K : Set (List UInt8)} {path : NodePtr → List UInt8}
    {lost : NodeType → Nat} {s : Db dbSizes} {o : OlcDb sizes} {jt : OlcIterator} (h : s.Inv K path lost)
    (hq : o.Quiet s) (rounds : Nat) {call : IterCall κ} (hit : jt.plain.Placed s.tree)
    (hfresh : o.Fresh jt.stack) (hkeybuf : call.Invalidates → jt.keybuf = []) :
    Simulates o (Carried o) (call.run s jt.plain) (call.olcRun s.next rounds jt) := by
  cases call with
  | move mv =>
    cases mv with
    | first =>
      exact (run_simulates (outermost_simulates h hq true (hkeybuf trivial))).andThen
        fun it r _ hcarried => .ret hcarried
    | last =>
      exact (run_simulates (outermost_simulates h hq false (hkeybuf trivial))).andThen
        fun it r _ hcarried => .ret hcarried
    | next =>
      exact (run_simulates (advance_simulates h hq true hit hfresh)).andThen
        fun it r _ hcarried => .ret hcarried
    | prior =>
      exact (run_simulates (advance_simulates h hq false hit hfresh)).andThen
        fun it r _ hcarried => .ret hcarried
  | seek k fwd =>
    exact (run_simulates (seek_simulates h hq fwd k (hkeybuf trivial))).andThen
      fun it r _ hcarried => .ret hcarried
  | invalidate =>
    refine .ret ⟨?_, fun e he => absurd he List.not_mem_nil⟩
    rw [OlcIterator.invalidate, OlcIterator.plain, hkeybuf trivial]
    rfl

end IterCall

/-! ## 1. Runs of calls -/

/-- A `db` with 64-bit keys. -/
def Db.WellFormedU64 (s : Db dbSizes) : Prop := ∃ path lost, s.Inv Db.u64Views path lost

/-- A call of an iterator of `db` that keeps the buffer. -/
def Iterator.KeepingStep {κ : Type} [ArtKey κ] (s : Db dbSizes) (it : Iterator) (call : IterCall κ)
    (it' : Iterator) : Prop :=
  call.run s it = .ok it' ∧ call.Keeps s.tree it

/-- A call of an iterator of `olc_db`, with the tree of `s` undisturbed, that keeps the buffer. -/
def OlcIterator.KeepingStep {κ : Type} [StoredKey κ] (s : Db dbSizes) (o : OlcDb sizes) (jt : OlcIterator)
    (call : IterCall κ) (jt' : OlcIterator) : Prop :=
  (∃ rounds choices o', (call.olcRun s.next rounds jt).exec choices o = some (.ok jt', o')) ∧
    call.Keeps s.tree jt.plain ∧ (call.Invalidates → jt.keybuf = [])

/-- The law holds after every run of calls that keep the buffer. -/
def BufferKept (κ : Type) [ArtKey κ] (s : Db dbSizes) : Prop :=
  ∀ {calls : List (IterCall κ)} {it : Iterator},
    Run (fun it call it' => it.KeepingStep s call it') .invalid calls it → it.BufferLaw s.tree

def OlcBufferKept (κ : Type) [StoredKey κ] (s : Db dbSizes) (o : OlcDb sizes) : Prop :=
  ∀ {calls : List (IterCall κ)} {jt : OlcIterator},
    Run (fun jt call jt' => jt.KeepingStep s o call jt') .new calls jt → jt.plain.BufferLaw s.tree

section Runs

variable {κ : Type} [StoredKey κ] {K : Set (List UInt8)} {path : NodePtr → List UInt8}
  {lost : NodeType → Nat} {s : Db dbSizes} {o : OlcDb sizes} (h : s.Inv K path lost)
  (hseek : ∀ (k : κ) (fwd : Bool), Ensures (Iterator.seek s k fwd) fun r =>
    Iterator.SeekResult s.tree fwd (ArtKey.getKeyView k) .invalid r.1 r.2)
include h hseek

theorem Iterator.KeepingStep.exact {it it' : Iterator} {call : IterCall κ}
    (hstep : it.KeepingStep s call it') (hit : it.Placed s.tree ∧ it.Exact) :
    it'.Placed s.tree ∧ it'.Exact := by
  obtain ⟨hplaced, hiff⟩ := IterCall.run_exact_iff h hseek hit.1 hit.2 hstep.1
  exact ⟨hplaced, hiff.mpr hstep.2⟩

theorem OlcIterator.KeepingStep.exact {jt jt' : OlcIterator} {call : IterCall κ} (hq : o.Quiet s)
    (hstep : jt.KeepingStep s o call jt')
    (hit : (jt.plain.Placed s.tree ∧ jt.plain.Exact) ∧ o.Fresh jt.stack) :
    (jt'.plain.Placed s.tree ∧ jt'.plain.Exact) ∧ o.Fresh jt'.stack := by
  obtain ⟨⟨rounds, choices, o', hexec⟩, hkeeps, hkeybuf⟩ := hstep
  obtain ⟨r, hr, hagree⟩ := IterCall.olcRun_simulates h hq rounds hit.1.1 hit.2 hkeybuf
  cases (hr choices).symm.trans hexec
  obtain ⟨it', jt₁, hrun, hok, hplain, hfresh⟩ | ⟨e, e', -, herror⟩ := hagree
  · cases hok
    subst hplain
    exact ⟨Iterator.KeepingStep.exact h hseek ⟨hrun, hkeeps⟩ hit.1, hfresh⟩
  · cases herror

theorem bufferKept : BufferKept κ s := by
  intro calls it hrun
  obtain ⟨hplaced, hexact⟩ := hrun.invariant
    (fun hit hstep => Iterator.KeepingStep.exact h hseek hstep hit) ⟨.inl rfl, rfl⟩
  exact hplaced.bufferLaw h.tree hexact

theorem olcBufferKept (hq : o.Quiet s) : OlcBufferKept κ s o := by
  intro calls jt hrun
  obtain ⟨⟨hplaced, hexact⟩, -⟩ := hrun.invariant
    (fun hit hstep => OlcIterator.KeepingStep.exact h hseek hq hstep hit)
    ⟨⟨.inl rfl, rfl⟩, fun e he => absurd he List.not_mem_nil⟩
  exact hplaced.bufferLaw h.tree hexact

end Runs

theorem seek_u64_ensures {path : NodePtr → List UInt8} {lost : NodeType → Nat} {s : Db dbSizes}
    (h : s.Inv Db.u64Views path lost) (k : U64Key) (fwd : Bool) :
    Ensures (Iterator.seek s k fwd) fun r =>
      Iterator.SeekResult s.tree fwd (ArtKey.getKeyView k) .invalid r.1 r.2 := by
  obtain ⟨it, found, hrun, hresult⟩ := seek_u64_spec h (bswap k.key) fwd
  have hkey : U64Key.make (bswap k.key) = k := congrArg U64Key.mk (bswap_bswap k.key)
  rw [hkey] at hrun
  rw [Db.view, hkey] at hresult
  rw [hrun]
  exact .ok hresult

/-- Along every run of calls that pop no entry of an inner node (and, for `olc_db`, invalidate no
    iterator with bytes in its buffer) the key buffer is what the stack spells, and begins the key of
    the current leaf. -/
theorem bufferLaw_of_run (s : Db dbSizes) (o : OlcDb sizes) :
    (s.WellFormed → BufferKept KeyView s ∧ (o.Quiet s → OlcBufferKept KeyView s o)) ∧
    (s.WellFormedU64 → BufferKept U64Key s ∧ (o.Quiet s → OlcBufferKept U64Key s o)) := by
  constructor
  · rintro ⟨K, path, lost, hfree, h⟩
    have hseek : ∀ (k : KeyView) (fwd : Bool), Ensures (Iterator.seek s k fwd) fun r =>
        Iterator.SeekResult s.tree fwd k.key .invalid r.1 r.2 :=
      fun _ _ => Iterator.seek_view_ensures h.tree hfree h.heightLE
    exact ⟨bufferKept h hseek, fun hq => olcBufferKept h hseek hq⟩
  · rintro ⟨path, lost, h⟩
    have hseek := seek_u64_ensures h
    exact ⟨bufferKept h hseek, fun hq => olcBufferKept h hseek hq⟩

/-- A `db` with the keys 1 and 2. -/
def Db.two : Db .db := (Db.run U64Key.make [.insert 1 [], .insert 2 []] (Db.empty .db)).2

theorem Db.two_wellFormed : Db.two.WellFormedU64 :=
  (Db.run_u64_spec [.insert 1 [], .insert 2 []]).2.1

theorem Db.two_straight : Straight Db.two.tree.Keys (Db.view U64Key.make 1) true := by
  obtain ⟨-, -, hrep⟩ := Db.run_u64_spec [.insert 1 [], .insert 2 []]
  have hmem : Db.view U64Key.make 1 ∈ Db.two.tree.Keys := by
    unfold Db.two
    exact (mem_keys_iff hrep).mpr (by decide +kernel)
  exact .inr (.inl ⟨_, hmem, .inl rfl, fun _ _ _ hwk _ => hwk⟩)

theorem exists_of_toOption_map {ε α β : Type} {x : Except ε α} {f : α → β} {b : β}
    (h : x.toOption.map f = some b) : ∃ a, x = .ok a ∧ f a = b := by
  cases x with
  | ok a => exact ⟨a, rfl, Option.some_inj.mp h⟩
  | error e => cases h

def OlcDb.two : OlcDb .olcDb := OlcDb.still Db.two

/-- A `first` and a `seek` on the one, and a `first` on the other. -/
theorem bufferLaw_of_run_two :
    (∃ it : Iterator,
      Run (fun it (call : IterCall U64Key) it' => it.KeepingStep Db.two call it') .invalid
        [.move .first, .seek (U64Key.make 1) true] it ∧ it.valid ∧ it.BufferLaw Db.two.tree) ∧
    ∃ jt : OlcIterator,
      Run (fun jt (call : IterCall U64Key) jt' => jt.KeepingStep Db.two OlcDb.two call jt') .new
        [.move .first] jt ∧ jt.plain.valid ∧ jt.plain.BufferLaw Db.two.tree := by
  have hfirst : (Iterator.first Db.two).toOption.map Iterator.valid = some true := by
    decide +kernel
  have hseek : (Iterator.seek Db.two (U64Key.make 1) true).toOption.map (fun r => r.1.valid) =
      some true := by
    decide +kernel
  obtain ⟨it₁, hfirst, hvalid₁⟩ := exists_of_toOption_map hfirst
  obtain ⟨⟨it₂, m⟩, hseek, hvalid⟩ := exists_of_toOption_map hseek
  have hrun : Run (fun it (call : IterCall U64Key) it' => it.KeepingStep Db.two call it') .invalid
      [.move .first, .seek (U64Key.make 1) true] it₂ := by
    refine .cons ⟨hfirst, trivial⟩ (.cons ⟨?_, Db.two_straight⟩ (.nil _))
    rw [IterCall.run, hseek]
    rfl
  -- The first leaf is the one that the iterator of `db` finds.
  obtain ⟨path, lost, hinv⟩ := Db.two_wellFormed
  have hquiet : OlcDb.two.Quiet Db.two := OlcDb.still_quiet _
  obtain ⟨r, hyields, hagree⟩ : OlcDb.Simulates OlcDb.two (OlcDb.Carried OlcDb.two)
      ((IterCall.move .first : IterCall U64Key).run Db.two OlcIterator.new.plain)
      ((IterCall.move .first : IterCall U64Key).olcRun Db.two.next 0 .new) :=
    IterCall.olcRun_simulates hinv hquiet 0 (.inl rfl) (fun e he => absurd he List.not_mem_nil)
      fun _ => rfl
  obtain ⟨it, jt, hfirst', rfl, hplain, -⟩ | ⟨e, e', herror, -⟩ := hagree
  · obtain rfl : it = it₁ := Except.ok.inj (hfirst'.symm.trans hfirst)
    subst hplain
    have hexec := hyields fun _ => {}
    have hrun' : Run (fun jt (call : IterCall U64Key) jt' =>
        jt.KeepingStep Db.two OlcDb.two call jt') .new [.move .first] jt :=
      .cons ⟨⟨0, fun _ => {}, _, hexec⟩, trivial, fun _ => rfl⟩ (.nil _)
    exact ⟨⟨it₂, hrun, hvalid, ((bufferLaw_of_run Db.two OlcDb.two).2 Db.two_wellFormed).1 hrun⟩,
      jt, hrun', hvalid₁,
      ((bufferLaw_of_run Db.two OlcDb.two).2 Db.two_wellFormed).2 hquiet hrun'⟩
  · cases hfirst.symm.trans herror

/-- With the keys 1 and 2, the move from the first to the second leaves nine bytes in the buffer. -/
theorem bufferLaw_fails : Db.two.WellFormedU64 ∧
    ¬ ∀ it : Iterator, Run (fun it (call : IterCall U64Key) it' => call.run Db.two it = .ok it')
      .invalid [.move .first, .move .next] it → it.BufferLaw Db.two.tree := by
  refine ⟨Db.two_wellFormed, fun hlaw => ?_⟩
  have hmoves : (Iterator.first Db.two).toOption.map (fun it => (Iterator.next Db.two it).toOption.map
      fun it => (it.keybuf.length, (Iterator.spelled it.stack).length)) = some (some (9, 8)) := by
    decide +kernel
  obtain ⟨it₁, hfirst, hmove⟩ := exists_of_toOption_map hmoves
  obtain ⟨it, hnext, hsizes⟩ := exists_of_toOption_map hmove
  have hexact : it.keybuf = Iterator.spelled it.stack :=
    (hlaw it (.cons hfirst (.cons hnext (.nil _)))).exact
  rw [hexact, Prod.mk.injEq] at hsizes
  omega

end Unodb
