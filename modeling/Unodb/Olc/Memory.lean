import Unodb.Olc.Refine
import Unodb.Olc.Versions

/-!
# Failure atomicity

An insertion or a removal that throws leaves a `db`, or an `olc_db` that one thread uses, as it was.
-/

namespace Unodb

namespace OlcDb

variable {o o' : OlcDb sizes} {s : Db dbSizes} {path : NodePtr → List UInt8} {lost : NodeType → Nat}
  {c : Call (BitVec 64)} {e : Fault}

/-- After a call that threw `e`, as for `db`: no lock is taken or obsolete either. -/
structure Undone (c : Call (BitVec 64)) (e : Fault) (o o' : OlcDb sizes) : Prop where
  exception : e = .badAlloc ∨ ∃ what, c.refusal U64Key.make = some what ∧ e = .lengthError what
  restored : Restored o o'
  root_free : ∃ version, o'.lock .root = .free version
  node_free : ∀ p, o'.mem.Reaches p → ∃ version, o'.lock (.node p.addr) = .free version
  retried : e = .badAlloc → ∀ me rounds choices, (∀ i, (choices i).badAlloc = false) → ∃ r o₁ o₂,
    (call me (rounds + 1) U64Key.make c).exec choices o = some (.ok r, o₁) ∧
    (call me (rounds + 1) U64Key.make c).exec choices o' = some (.ok r, o₂) ∧
    Db.Alike o₁.counted o₂.counted o₁.stats o₂.stats

/-- What a call that throws has done, and what it would have done with enough memory. -/
theorem Performs.error_u64 (hperforms : Performs U64Key.make o (c, .error e) o') (hm : o.Mirrors s)
    (h : s.Inv Db.u64Views path lost) :
    (e = .badAlloc ∨ ∃ what, c.refusal U64Key.make = some what ∧ e = .lengthError what) ∧
      Restored o o' ∧ (e = .badAlloc → ∃ r, (Db.step U64Key.make c s).1 = .ok r) := by
  obtain ⟨me, rounds, choices, hexec⟩ := hperforms
  obtain ⟨r, o₁, hexec₁, -, hfails⟩ := (call_ends (P := fun _ => True) me rounds U64Key.make hm h
    Db.u64Views_prefixFree (Db.keyIn_u64 Db.view_mem_u64Views c)).exec choices fun _ => trivial
  obtain ⟨rfl, rfl⟩ := Prod.mk.inj (Option.some_inj.mp (hexec₁.symm.trans hexec))
  rcases hfails e rfl with ⟨hrestored, rfl, hfits, -⟩ | ⟨rfl, hstep, -⟩ | ⟨rfl, hstep⟩
  · refine ⟨.inl rfl, hrestored, fun _ => ?_⟩
    cases hstep : (Db.step U64Key.make c s).1 with
    | ok r => exact ⟨r, rfl⟩
    | error fault =>
      obtain ⟨what, hwhat, -⟩ := h.step_error_u64 hstep
      cases hfits.symm.trans hwhat
  · obtain ⟨what, hwhat, rfl, -⟩ := h.step_error_u64 (congrArg Prod.fst hstep)
    exact ⟨.inr ⟨what, hwhat, rfl⟩, .refl _, nofun⟩
  · obtain ⟨what, -, hassertion, -⟩ := h.step_error_u64 hstep
    cases hassertion

theorem Performs.undone (hperforms : Performs U64Key.make o (c, .error e) o') (hm : o.Mirrors s)
    (h : s.Inv Db.u64Views path lost) : Undone c e o o' := by
  obtain ⟨hexception, hrestored, hwould⟩ := hperforms.error_u64 hm h
  have hm' := hm.restored hrestored
  have hle : s.next ≤ o'.next := hm.next ▸ hrestored.1
  refine ⟨hexception, hrestored, hm'.root_free, fun p hp => ?_,
    fun hbad me rounds choices hmemory => ?_⟩
  · obtain ⟨body, hbody⟩ := Option.ne_none_iff_exists'.mp
      ((hm'.reaches_iff (h.restored hle).tree p.addr).mp ⟨p, hp, rfl⟩)
    exact hm'.node_free hbody
  · obtain ⟨r, hr⟩ := hwould hbad
    obtain ⟨hresult, hbinds⟩ := h.step_restored hle c
    obtain ⟨o₁, path₁, lost₁, hexec₁, hm₁, h₁⟩ := call_of_step hmemory hm h me rounds c
    obtain ⟨o₂, path₂, lost₂, hexec₂, hm₂, h₂⟩ :=
      call_of_step hmemory hm' (h.restored hle) me rounds c
    rw [hr] at hexec₁
    rw [hresult, hr] at hexec₂
    refine ⟨r, o₁, o₂, hexec₁, hexec₂, ?_⟩
    rw [hm₁.toStores.tree, hm₂.toStores.tree]
    exact h₁.alike h₂ (fun k v => (hbinds k v).symm) hm₁.accounted hm₂.accounted

end OlcDb

/-- Whatever there is memory for, a call that throws leaves the `db` or the `olc_db` as it was, after
    every run in which calls may have thrown before. -/
theorem undone_of_run (sizes : Sizes) :
    (∀ (events : List (Call (BitVec 64) × Except Fault Output)) (s : Db sizes),
      Run (Db.Performs U64Key.make) (.empty sizes) events s → ∀ c e s',
        Db.Performs U64Key.make s (c, .error e) s' → Db.Undone c e s s') ∧
    ∀ (events : List (Call (BitVec 64) × Except Fault Output)) (o : OlcDb sizes),
      Run (OlcDb.Performs U64Key.make) (.empty sizes) events o → ∀ c e o',
        OlcDb.Performs U64Key.make o (c, .error e) o' → OlcDb.Undone c e o o' := by
  refine ⟨fun events s hrun c e s' hperforms => ?_, fun events o hrun c e o' hperforms => ?_⟩
  · obtain ⟨path, lost, h⟩ := Db.inv_of_run_u64 hrun
    exact hperforms.undone h
  · have hempty : (OlcDb.empty sizes).Mirrors (Db.empty sizes) := OlcDb.empty_mirrors
    obtain ⟨-, s, path, lost, hm, h⟩ := OlcDb.run_u64_mirrors hempty (Db.Inv.empty fun _ => []) hrun
    exact hperforms.undone hm h

/-- The second key of a tree: there is memory for its leaf, and none for the node above it. -/
theorem undone_of_run_split :
    (∃ s s' : Db .db, Db.Performs U64Key.make s (.insert 2 [], .error .badAlloc) s' ∧
      Db.Undone (.insert 2 []) .badAlloc s s') ∧
    ∃ o o' : OlcDb .olcDb, OlcDb.Performs U64Key.make o (.insert 2 [], .error .badAlloc) o' ∧
      o'.next = o.next + 1 ∧ OlcDb.Undone (.insert 2 []) .badAlloc o o' := by
  constructor
  · have hfirst : (Db.stepWith U64Key.make (fun _ => true) (.insert 1 [7]) (.empty .db)).1 =
        .ok (.bool true) := by decide +kernel
    have hsecond : (Db.stepWith U64Key.make (· ≠ .i4) (.insert 2 [])
        (Db.stepWith U64Key.make (fun _ => true) (.insert 1 [7]) (.empty .db)).2).1 =
        .error .badAlloc := by decide +kernel
    have hperforms : Db.Performs U64Key.make _ (.insert 2 [], .error .badAlloc) _ :=
      ⟨(· ≠ .i4), Prod.ext hsecond rfl⟩
    refine ⟨_, _, hperforms,
      (undone_of_run .db).1 [(.insert 1 [7], .ok (.bool true))] _ ?_ _ _ _ hperforms⟩
    exact .cons ⟨fun _ => true, Prod.ext hfirst rfl⟩ (.nil _)
  · have hruns : ((OlcDb.runCalls 0 (fun _ => {}) U64Key.make [.insert 1 [7]] (.empty .olcDb)).any fun r =>
        ((OlcDb.call 0 1 U64Key.make (.insert 2 [])).exec (fun i => { badAlloc := 6 ≤ i }) r.2).any
          fun x => x.1 = .error .badAlloc && x.2.next = r.2.next + 1) = true := by
      decide +kernel
    obtain ⟨⟨rs, o⟩, hrun, hcall⟩ := (Option.any_eq_true _ _).mp hruns
    obtain ⟨⟨r, o'⟩, hexec, hboth⟩ := (Option.any_eq_true _ _).mp hcall
    obtain ⟨hr, hnext⟩ := Bool.and_eq_true_iff.mp hboth
    obtain rfl : r = .error .badAlloc := of_decide_eq_true hr
    have hperforms : OlcDb.Performs U64Key.make o (.insert 2 [], .error .badAlloc) o' :=
      ⟨0, 0, _, hexec⟩
    exact ⟨o, o', hperforms, of_decide_eq_true hnext, (undone_of_run .olcDb).2 _ o
      (OlcDb.run_of_runCalls hrun) _ _ o' hperforms⟩

end Unodb
