import Unodb.Db.Range
import Unodb.Olc.Alone

/-!
# Scans of `olc_db`

A scan of a range is a seek and a loop of moves, each of which retries on its own.
-/

namespace Unodb

namespace OlcDb

/-- The loop of `scan_range`, with the entries visited.  `inside` is its bound. -/
def scanLoop (κ : Type) [StoredKey κ] {σ : Type} (fuel rounds : Nat) (fwd : Bool)
    (inside : List UInt8 → Bool) (fn : Visitor σ) : Nat → OlcIterator → σ → OlcM sizes (List Entry)
  | 0, _, _ => Prog.throw .outOfFuel
  | limit + 1, it, state =>
    match it.stack with
    | [] => return []
    | e :: _ => do
      -- `cmp` reads the key of the leaf, and the function its key and value.
      let key ← readKey e.node
      if inside key then
        let entry ← readLeaf e.node
        let (halt, state) := fn state entry
        if halt then return [entry]
        else
          let (it, _) ← (IterOperation.advance fwd : IterOperation κ).run fuel rounds it
          return entry :: (← scanLoop κ fuel rounds fwd inside fn limit it state)
      else return []

/-- `scan_range` of an `olc_db<key_view>`. -/
def scanRangeView {σ : Type} (fuel rounds limit : Nat) (fn : Visitor σ) (state : σ)
    (x y : ViewObject) : OlcM sizes (List Entry) :=
  if x.cmp y = 0 then return []
  else do
    let fwd := decide (x.cmp y < 0)
    let (it, _) ← (IterOperation.seek x.toKey fwd).run fuel rounds .new
    let inside := fun key =>
      let cmp := compare key y.bytes
      if fwd then decide (cmp < 0) else decide (0 < cmp)
    scanLoop KeyView fuel rounds fwd inside fn limit it state

section Simulation

variable {κ : Type} [StoredKey κ] {K : Set (List UInt8)} {path : NodePtr → List UInt8}
  {lost : NodeType → Nat} {s : Db dbSizes} {o : OlcDb sizes} (h : s.Inv K path lost) (hq : o.Quiet s)
include h hq

/-- The loop visits what the loop of `db` visits. -/
theorem scanLoop_simulates {σ : Type} {fwd : Bool} {inside : List UInt8 → Bool} {fn : Visitor σ}
    {rounds limit : Nat} {jt : OlcIterator} {state : σ} (hit : jt.plain.Placed s.tree)
    (hfresh : o.Fresh jt.stack) :
    Simulates o (· = ·) (Db.scanLoop s fwd inside fn limit jt.plain state)
      (scanLoop κ s.next (rounds + 1) fwd inside fn limit jt state) := by
  induction limit generalizing jt state with
  | zero => exact .throw
  | succ limit ih =>
    rcases hit with hend | ⟨k, v, hon⟩
    · rw [scanLoop_end hend]
      have hnil : jt.stack = [] := List.map_eq_nil_iff.mp hend
      rw [scanLoop, hnil]
      exact .ret rfl
    · obtain ⟨hvalid, hentry⟩ := hon.entry_eq
      obtain ⟨stack₀, slot, p, hstack, -, -, hp⟩ := hon.at_leaf
      obtain ⟨e, stack, hjt⟩ : ∃ e stack, jt.stack = e :: stack := by
        cases hjt : jt.stack with
        | nil =>
          rw [OlcIterator.plain, hjt] at hstack
          cases hstack
        | cons e stack => exact ⟨e, stack, rfl⟩
      have hnode : e.node = p := by
        rw [OlcIterator.plain, hjt] at hstack
        exact congrArg StackEntry.node (List.cons.inj hstack).1
      have hleaf : s.tree.deref e.node = some (.leaf k v) := hnode ▸ hp
      rw [Db.scanLoop, if_pos hvalid, hentry, scanLoop, hjt]
      refine .step (yields_readKey hq hleaf) ?_
      show Simulates o _ (if inside k = true then _ else _) _
      by_cases hin : inside k = true
      · rw [if_pos hin, if_pos hin]
        refine .step (yields_readLeaf hq hleaf) ?_
        rcases fn state (k, v) with ⟨halt, state'⟩
        cases halt with
        | true => exact .ret rfl
        | false =>
          refine .bind (run_simulates (advance_simulates h hq fwd (.inr ⟨k, v, hon⟩) hfresh))
            fun it' r hmove hcarried => ?_
          obtain ⟨jt', response⟩ := r
          obtain ⟨hplain, hfresh'⟩ := hcarried
          dsimp only at hplain hfresh'
          subst hplain
          obtain ⟨it₁, hmove₁, hnext⟩ := hon.advance_cases h fwd
          obtain rfl : jt'.plain = it₁ := Except.ok.inj (hmove.symm.trans hmove₁)
          have hplaced : jt'.plain.Placed s.tree := Iterator.placed_of_on hnext
          refine .bind (ih hplaced hfresh') fun es es' _ heq => ?_
          exact .ret (congrArg _ heq)
      · rw [if_neg hin, if_neg hin]
        exact .ret rfl

/-- Alone, a scan of a range visits what the scan of `db` visits. -/
theorem scanRangeView_simulates (hfree : Radix.PrefixFree K) {σ : Type} (fn : Visitor σ) (state : σ)
    (x y : ViewObject) (rounds : Nat) :
    Simulates o (· = ·) (Db.scanRangeView fn state s x y)
      (scanRangeView s.next (rounds + 1) (s.next + 1) fn state x y) := by
  rw [Db.scanRangeView, Db.scanRange, scanRangeView]
  by_cases hzero : x.cmp y = 0
  · rw [if_pos hzero, if_pos hzero]
    exact .ret rfl
  · rw [if_neg hzero, if_neg hzero]
    generalize decide (x.cmp y < 0) = fwd
    have hplaced : ∀ {it m}, Iterator.seek s x.toKey fwd = .ok (it, m) → it.Placed s.tree :=
      fun hrun => SeekResult.placed (Iterator.seek_view_ensures h.tree hfree h.heightLE _ hrun)
    -- `match` is not used.
    have hmap : ∀ f : Iterator → Except Fault (List Entry), (Iterator.seek s x.toKey fwd >>= fun r =>
        f r.1) = (Iterator.seek s x.toKey fwd).map Prod.fst >>= f := by
      intro f
      cases Iterator.seek s x.toKey fwd <;> rfl
    show Simulates o (· = ·) (Iterator.seek s x.toKey fwd >>= fun r =>
        Db.scanLoop s fwd (Db.within fwd y.bytes) fn (s.next + 1) r.1 state)
      ((IterOperation.seek x.toKey fwd).run s.next (rounds + 1) .new >>= fun r =>
        scanLoop KeyView s.next (rounds + 1) fwd (Db.within fwd y.bytes) fn (s.next + 1) r.1 state)
    rw [hmap fun it => Db.scanLoop s fwd (Db.within fwd y.bytes) fn (s.next + 1) it state]
    have hempty : OlcIterator.new.keybuf = [] := rfl
    refine .bind (run_simulates (seek_simulates h hq fwd x.toKey hempty))
      fun it r hok hcarried => ?_
    obtain ⟨hplain, hfresh⟩ := hcarried
    subst hplain
    refine scanLoop_simulates h hq ?_ hfresh
    cases hrun : Iterator.seek s x.toKey fwd with
    | error fault =>
      rw [hrun] at hok
      cases hok
    | ok found =>
      rw [hrun] at hok
      exact Except.ok.inj hok ▸ hplaced hrun

end Simulation

/-- Alone on the tree of `s`, the scan from `x` to `y` visits these entries, however often its
    operations may retry. -/
def Visits (o : OlcDb sizes) (s : Db dbSizes) {σ : Type} (fn : Visitor σ) (state : σ) (x y : ViewObject)
    (entries : List Entry) : Prop :=
  ∀ rounds, (scanRangeView s.next (rounds + 1) (s.next + 1) fn state x y).Yields o (.ok entries) o

theorem visits_iff {s : Db dbSizes} {o : OlcDb sizes} (h : s.WellFormed) (hq : o.Quiet s) {σ : Type}
    (fn : Visitor σ)
    (state : σ) (x y : ViewObject) (entries : List Entry) :
    o.Visits s fn state x y entries ↔ s.Visits fn state x y entries := by
  obtain ⟨K, path, lost, hfree, hinv⟩ := h
  have hsimulates := scanRangeView_simulates hinv hq hfree fn state x y
  constructor
  · intro hvisits
    obtain ⟨r, hr, ⟨es, es', hrun, rfl, rfl⟩ | ⟨e, e', -, rfl⟩⟩ := hsimulates 0
    · obtain ⟨hsame, -⟩ := Prod.mk.inj (Option.some_inj.mp
        ((hr fun _ => {}).symm.trans (hvisits 0 fun _ => {})))
      rw [Except.ok.inj hsame] at hrun
      exact hrun
    · cases (hr fun _ => {}).symm.trans (hvisits 0 fun _ => {})
  · intro hvisits rounds
    obtain ⟨r, hr, ⟨es, es', hrun, rfl, rfl⟩ | ⟨e, e', hrun, -⟩⟩ := hsimulates rounds
    · rw [Except.ok.inj (hrun.symm.trans hvisits)] at hr
      exact hr
    · cases hrun.symm.trans hvisits

end OlcDb

/-- Two range scans with the same bytes go through one list of entries, in the direction of the bytes,
    exactly when both ranges are regular: of a `db`, and of an `olc_db` with its tree. -/
theorem rangeLaw_view_iff {s : Db dbSizes} {o : OlcDb sizes} (h : s.WellFormed) (hq : o.Quiet s)
    {x y x' y' : ViewObject} (hx : x'.bytes = x.bytes) (hy : y'.bytes = y.bytes) :
    ((∃ entries, RangeLaw (fun fn state => s.Visits fn state) x y x' y' entries) ↔
      RangeRegular s.tree.Keys x y ∧ RangeRegular s.tree.Keys x' y') ∧
    ((∃ entries, RangeLaw (fun fn state => o.Visits s fn state) x y x' y' entries) ↔
      RangeRegular s.tree.Keys x y ∧ RangeRegular s.tree.Keys x' y') := by
  have hvisits : ∀ {σ : Type} (fn : Visitor σ) (state : σ) (x y : ViewObject) (entries : List Entry),
      o.Visits s fn state x y entries ↔ s.Visits fn state x y entries := OlcDb.visits_iff h hq
  obtain ⟨K, path, lost, hfree, hinv⟩ := h
  have hlaw := rangeLaw_iff hinv hfree hx hy
  refine ⟨hlaw, Iff.trans (exists_congr fun entries => ?_) hlaw⟩
  constructor
  · rintro ⟨hleft, hright, hnothing, hdirected⟩
    exact ⟨fun fn state => (hvisits fn state x y _).mp (hleft fn state),
      fun fn state => (hvisits fn state x' y' _).mp (hright fn state), hnothing, hdirected⟩
  · rintro ⟨hleft, hright, hnothing, hdirected⟩
    exact ⟨fun fn state => (hvisits fn state x y _).mpr (hleft fn state),
      fun fn state => (hvisits fn state x' y' _).mpr (hright fn state), hnothing, hdirected⟩

/-- A key of two bytes that starts with 5, at an address. -/
def keyAt (address : BitVec 64) (b : UInt8) : ViewObject := ⟨address, [5, b], by simp⟩

theorem rangeLaw_view_iff_forked :
    ((∃ entries, RangeLaw (fun fn state => Db.forked.Visits fn state) (keyAt 0x1000 1) (keyAt 0x1002 2)
        (keyAt 0x2004 1) (keyAt 0x2006 2) entries) ↔
      RangeRegular Db.forked.tree.Keys (keyAt 0x1000 1) (keyAt 0x1002 2) ∧
        RangeRegular Db.forked.tree.Keys (keyAt 0x2004 1) (keyAt 0x2006 2)) ∧
    ((∃ entries, RangeLaw
        (fun fn state => (OlcDb.still Db.forked : OlcDb .olcDb).Visits Db.forked fn state)
        (keyAt 0x1000 1) (keyAt 0x1002 2) (keyAt 0x2004 1) (keyAt 0x2006 2) entries) ↔
      RangeRegular Db.forked.tree.Keys (keyAt 0x1000 1) (keyAt 0x1002 2) ∧
        RangeRegular Db.forked.tree.Keys (keyAt 0x2004 1) (keyAt 0x2006 2)) :=
  rangeLaw_view_iff Db.forked_wellFormed (OlcDb.still_quiet Db.forked) rfl rfl

/-- The range from 05 01 to 05 02 has an entry when the first key lies before the second, and none
    when it lies behind. -/
theorem rangeLaw_view_fails : Db.forked.WellFormed ∧
    ¬ ∃ entries, RangeLaw (fun fn state => Db.forked.Visits fn state) (keyAt 0x1000 1)
      (keyAt 0x1002 2) (keyAt 0x1002 1) (keyAt 0x1000 2) entries := by
  have hbefore : Db.scanRangeView (fun (_ : Unit) (_ : Entry) => (false, ())) () Db.forked
      (keyAt 0x1000 1) (keyAt 0x1002 2) = .ok [([5, 1], [7])] := by decide +kernel
  have hbehind : Db.scanRangeView (fun (_ : Unit) (_ : Entry) => (false, ())) () Db.forked
      (keyAt 0x1002 1) (keyAt 0x1000 2) = .ok [] := by decide +kernel
  refine ⟨Db.forked_wellFormed, ?_⟩
  rintro ⟨entries, hlaw⟩
  have hleft := Except.ok.inj (hbefore.symm.trans (hlaw.left _ ()))
  have hright := Except.ok.inj (hbehind.symm.trans (hlaw.right _ ()))
  rw [← hright] at hleft
  cases hleft

end Unodb
