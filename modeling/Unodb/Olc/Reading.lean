import Unodb.Olc.Iterator

/-!
# What only reads

Lookups and the operations of an iterator change nothing.
-/

namespace Unodb

namespace OlcDb

open Prog.Reads

variable {α β : Type}

/-! ## 1. Actions -/

theorem reads_act {f : OlcDb sizes → β × OlcDb sizes} (hf : ∀ s, (f s).2 = s) : (act f).Reads :=
  .action fun _ s b s' h => by
    obtain ⟨-, rfl⟩ := Prod.mk.inj (Option.some.inj h)
    exact hf s

theorem reads_tryAct {f : Choice → OlcDb sizes → Except Fault (β × OlcDb sizes)}
    (hf : ∀ c s b s', f c s = .ok (b, s') → s' = s) : (tryAct f).Reads := by
  refine .bind (.action fun c s r s' h => ?_) fun r => .lift
  cases hr : f c s with
  | error e =>
    rw [hr] at h
    exact (Prod.mk.inj (Option.some.inj h)).2.symm
  | ok bs =>
    rw [hr] at h
    obtain ⟨-, rfl⟩ := Prod.mk.inj (Option.some.inj h)
    exact hf c s _ _ hr

theorem reads_tryReadLock (l : Site) : (tryReadLock l : OlcM sizes _).Reads :=
  .action fun _ s b s' h => by
    split at h
    · exact (Prod.mk.inj (Option.some.inj h)).2.symm
    · exact (Prod.mk.inj (Option.some.inj h)).2.symm
    · cases h

theorem reads_check (cs : CriticalSection) : (check cs : OlcM sizes _).Reads := reads_act fun _ => rfl

theorem reads_checked {cs : CriticalSection} {p q : OlcM sizes α} (hp : p.Reads) (hq : q.Reads) :
    (check cs >>= fun b => if b = true then p else q).Reads :=
  .bind (reads_check cs) fun _ => .ite hp hq

theorem reads_loadRoot : (loadRoot : OlcM sizes _).Reads := reads_act fun _ => rfl

theorem reads_reading (css : List CriticalSection) (node : NodePtr) (f : INode NodePtr → β) :
    (reading css node f : OlcM sizes _).Reads := by
  refine reads_tryAct fun c s b s' h => ?_
  obtain ⟨n, -, hn⟩ := ok_of_bind h
  exact (Prod.mk.inj (Except.ok.inj hn)).2.symm

theorem reads_loadChild (cs : CriticalSection) (sl : Slot) : (loadChild cs sl : OlcM sizes _).Reads := by
  refine reads_tryAct fun c s b s' h => ?_
  cases sl with
  | root => exact (Prod.mk.inj (Except.ok.inj h)).2.symm
  | child a i =>
    dsimp only at h
    split at h
    · exact (Prod.mk.inj (Except.ok.inj h)).2.symm
    · cases h

theorem reads_readKey (node : NodePtr) : (readKey node : OlcM sizes _).Reads := by
  refine reads_tryAct fun c s b s' h => ?_
  obtain ⟨leaf, -, hleaf⟩ := ok_of_bind h
  exact (Prod.mk.inj (Except.ok.inj hleaf)).2.symm

section Lookups

variable {κ : Type} [ArtKey κ]

end Lookups

/-! ## 3. Iterators -/

section Iteration

variable {node : NodePtr} {parentCs nodeCs : CriticalSection} {it : OlcIterator} {fuel : Nat}
  {fwd : Bool}

theorem reads_traversalLoop :
    (traversalLoop fwd fuel node parentCs it : OlcM sizes _).Reads := by
  induction fuel generalizing node parentCs it with
  | zero => exact .throw
  | succ fuel ih =>
    refine .bind (reads_tryReadLock _) fun cs => ?_
    cases cs with
    | none => exact .ret
    | some nodeCs =>
      refine reads_checked ?_ .ret
      split
      · exact .bind (reads_check _) fun _ => .ret
      · refine .bind (reads_reading _ _ _) fun r => reads_checked ?_ .ret
        refine .bind (.lift) fun e => .bind (.lift) fun it =>
          .bind (reads_reading _ _ _) fun child => reads_checked ?_ .ret
        exact .bind (.lift) fun child => ih

theorem reads_tryTraversal : (tryTraversal fuel fwd node parentCs it : OlcM sizes _).Reads :=
  reads_checked reads_traversalLoop .ret

theorem reads_tryOutermost : (tryOutermost fuel fwd it : OlcM sizes _).Reads := by
  refine .bind (reads_tryReadLock _) fun cs => ?_
  cases cs with
  | none => exact .ret
  | some parentCs =>
    refine .bind reads_loadRoot fun root => ?_
    cases root with
    | none => exact .bind (reads_check _) fun _ => .ret
    | some node => exact reads_tryTraversal

theorem reads_tryAdvance {stack : List OlcStackEntry} {keybuf : List UInt8} :
    (tryAdvance fuel fwd stack keybuf : OlcM sizes _).Reads := by
  induction stack generalizing keybuf with
  | nil => exact .ret
  | cons e stack ih =>
    refine reads_checked ?_ .ret
    split
    · exact .bind (.lift) fun keybuf => reads_checked ih .ret
    · refine .bind (reads_reading _ _ _) fun nxt => reads_checked ?_ .ret
      refine .bind (.lift) fun nxt => ?_
      cases nxt with
      | none => exact .bind (.lift) fun keybuf => reads_checked ih .ret
      | some e2 =>
        refine .bind (.lift) fun keybuf => .bind (.lift) fun it =>
          .bind (reads_reading _ _ _) fun child => reads_checked ?_ .ret
        exact .bind (.lift) fun child => reads_tryTraversal

theorem reads_tryUnwind {stack : List OlcStackEntry} {keybuf : List UInt8} :
    (tryUnwind fuel fwd stack keybuf : OlcM sizes _).Reads := by
  induction stack generalizing keybuf with
  | nil => exact .ret
  | cons centry stack ih =>
    refine reads_checked ?_ .ret
    refine .bind (reads_reading _ _ _) fun cnxt => .bind (.lift) fun cnxt => ?_
    cases cnxt with
    | none => exact .bind (.lift) fun keybuf => reads_checked ih .ret
    | some e =>
      refine .bind (reads_reading _ _ _) fun nchild => reads_checked ?_ .ret
      exact .bind (.lift) fun nchild => reads_tryTraversal

variable [ArtKey κ] {k remainingKey : κ}

theorem reads_seekLeaf : (seekLeaf fuel k fwd node nodeCs it : OlcM sizes _).Reads := by
  refine .bind (reads_readKey _) fun key => reads_checked (.ite .ret (.ite .ret ?_)) .ret
  exact .bind reads_tryAdvance fun _ => .ret

omit [ArtKey κ] in
theorem reads_seekFork {keyByte prefixByte : UInt8} :
    (seekFork fuel fwd keyByte prefixByte node parentCs nodeCs it : OlcM sizes _).Reads := by
  refine .bind reads_tryTraversal fun r => reads_checked ?_ .ret
  split
  · split
    · exact .ret
    · exact .bind reads_tryAdvance fun _ => .ret
  · exact .ret

omit [ArtKey κ] in
theorem reads_seekGap {keyByte : UInt8} :
    (seekGap fuel fwd keyByte node parentCs nodeCs it : OlcM sizes _).Reads := by
  refine .bind (reads_reading _ _ _) fun nxt => ?_
  cases nxt with
  | none =>
    refine reads_checked (reads_checked ?_ .ret) .ret
    split
    · exact .ret
    · exact .bind (.lift) fun keybuf => .bind reads_tryUnwind fun _ => .ret
  | some tmp =>
    refine .bind (reads_reading _ _ _) fun child => reads_checked (reads_checked ?_ .ret) .ret
    exact .bind (.lift) fun it => .bind (.lift) fun child =>
      .bind reads_tryTraversal fun _ => .ret

theorem reads_seekLoop {rounds : Nat} :
    (seekLoop fuel k fwd rounds node parentCs remainingKey it : OlcM sizes _).Reads := by
  induction rounds generalizing node parentCs remainingKey it with
  | zero => exact .throw
  | succ rounds ih =>
    refine .bind (reads_tryReadLock _) fun cs => ?_
    cases cs with
    | none => exact .ret
    | some nodeCs =>
      refine reads_checked ?_ .ret
      split
      · exact reads_checked reads_seekLeaf .ret
      · refine .bind (reads_reading _ _ _) fun keyPrefix => ?_
        dsimp only
        split
        · exact .bind (.lift) fun _ => .bind (.lift) fun _ =>
            .bind (.lift) fun _ => reads_seekFork
        · refine .bind (.lift) fun remainingKey => .bind (.lift) fun keyByte =>
            .bind (reads_reading _ _ _) fun found => ?_
          cases found with
          | none => exact reads_seekGap
          | some r =>
            refine .bind (.lift) fun it => .bind (reads_loadChild _ _) fun child =>
              .bind (.lift) fun remainingKey => reads_checked ?_ .ret
            exact .bind (.lift) fun child => ih

theorem reads_trySeek : (trySeek fuel k fwd it : OlcM sizes _).Reads := by
  refine .bind (reads_tryReadLock _) fun cs => ?_
  cases cs with
  | none => exact .ret
  | some parentCs =>
    refine .bind reads_loadRoot fun root => ?_
    cases root with
    | none => exact reads_checked .ret .ret
    | some node => exact reads_checked reads_seekLoop .ret

end Iteration

theorem reads_iterAttempt {κ : Type} [StoredKey κ] {fuel : Nat} {it : OlcIterator}
    (op : IterOperation κ) : (op.attempt fuel it : OlcM sizes _).Reads := by
  cases op with
  | outermost fwd => exact .bind reads_tryOutermost fun _ => .ret
  | advance fwd =>
    simp only [IterOperation.attempt]
    split
    · exact .ret
    · exact .bind (.lift) fun _ => .bind (reads_readKey _) fun _ =>
        .bind reads_tryAdvance fun _ => .ret
  | resume fwd akey =>
    refine .bind reads_trySeek fun r => ?_
    split
    · exact .ret
    · exact .ret
    · exact .bind reads_tryAdvance fun _ => .ret
  | seek searchKey fwd =>
    refine .bind reads_trySeek fun r => ?_
    split
    · exact .ret
    · exact .ret

end OlcDb

end Unodb
