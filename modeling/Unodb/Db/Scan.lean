import Mathlib.Data.List.TakeWhile
import Unodb.Db.Seek
import Unodb.Db.Ordered

/-!
# Seeks and scans of 64-bit keys

A scan visits the entries from the one its seek leads to, in the order of the direction, until its
function asks it to stop.
-/

namespace Unodb

open Iterator (stored)

/-- What is visited of a list of entries by a function with a state: up to the first entry at which it
    returns true. -/
def visited {σ α : Type} (fn : σ → α → Bool × σ) : σ → List α → List α
  | _, [] => []
  | state, e :: es =>
    let (halt, state) := fn state e
    if halt then [e] else e :: visited fn state es

/-- The entries of keys. -/
def entriesOf (m : RefMap (BitVec 64)) (keys : List (BitVec 64)) : List (List UInt8 × List UInt8) :=
  keys.map fun k => (Db.view U64Key.make k, (m k).getD [])

/-! ## 1. Sorted keys -/

theorem mem_takeWhile_iff {α : Type} {r : α → α → Prop} {q : α → Bool} {l : List α}
    (hl : l.Pairwise r) (hq : ∀ {a b}, r a b → q b → q a) (a : α) :
    a ∈ l.takeWhile q ↔ a ∈ l ∧ q a := by
  induction l with
  | nil => simp
  | cons b l ih =>
    rw [List.pairwise_cons] at hl
    by_cases hb : q b
    · rw [List.takeWhile_cons_of_pos hb, List.mem_cons, List.mem_cons, ih hl.2]
      constructor
      · rintro (rfl | ⟨ha, hqa⟩)
        · exact ⟨.inl rfl, hb⟩
        · exact ⟨.inr ha, hqa⟩
      · rintro ⟨rfl | ha, hqa⟩
        · exact .inl rfl
        · exact .inr ⟨ha, hqa⟩
    · rw [List.takeWhile_cons_of_neg hb]
      refine iff_of_false List.not_mem_nil ?_
      rintro ⟨ha, hqa⟩
      rcases List.mem_cons.mp ha with rfl | ha
      · exact hb hqa
      · exact hb (hq (hl.1 a ha) hqa)

theorem toward_trans {fwd : Bool} {a b c : BitVec 64} (hab : Toward fwd a b) (hbc : Toward fwd b c) :
    Toward fwd a c := by
  cases fwd with
  | true => exact BitVec.lt_trans hab hbc
  | false => exact BitVec.lt_trans hbc hab

namespace Db

/-- Encoded keys compare as the keys do. -/
theorem view_u64_toward_iff {fwd : Bool} (a b : BitVec 64) :
    Toward fwd (view U64Key.make a) (view U64Key.make b) ↔ Toward fwd a b := by
  rw [← view_u64_precedes_iff]
  refine ⟨fun hlt => ?_, toward_of_precedes⟩
  have hne : view U64Key.make a ≠ view U64Key.make b := fun heq =>
    Toward.irrefl _ (heq ▸ hlt)
  have hfree := u64Views_prefixFree
  exact precedes_of_toward
    (fun hpre => hne (hfree _ (view_mem_u64Views a) _ (view_mem_u64Views b) hpre))
    (fun hpre => hne (hfree _ (view_mem_u64Views b) _ (view_mem_u64Views a) hpre).symm) hlt

theorem memcmp_eq_compare {a b : List UInt8} (hlen : a.length = b.length) :
    memcmp a b = compare a b := by
  have hmin : min a.length b.length = a.length := by omega
  simp only [compare, hmin]
  rw [List.take_of_length_le (Nat.le_refl _), List.take_of_length_le (Nat.le_of_eq hlen.symm)]
  split
  case isTrue => rfl
  case isFalse hzero => exact not_not.mp hzero

theorem cmpU64_eq_compare (a b : BitVec 64) : cmpU64 (U64Key.make a) (U64Key.make b) =
    compare (view U64Key.make a) (view U64Key.make b) :=
  memcmp_eq_compare ((view_mem_u64Views a).trans (view_mem_u64Views b).symm)

/-- The sign of a comparison of the ends of a range that makes the direction of the scan. -/
def Heads (fwd : Bool) (ret : Int) : Prop := if fwd then ret < 0 else 0 < ret

theorem heads_compare_iff {fwd : Bool} (a b : List UInt8) :
    Heads fwd (compare a b) ↔ Toward fwd a b := by
  cases fwd with
  | true => exact compare_neg_iff a b
  | false => exact compare_pos_iff a b

/-- The bound of `scan_range`. -/
def within (fwd : Bool) (bound key : List UInt8) : Bool :=
  if fwd then decide (compare key bound < 0) else decide (0 < compare key bound)

theorem within_iff {fwd : Bool} (bound key : List UInt8) :
    within fwd bound key ↔ Toward fwd key bound := by
  cases fwd with
  | true => exact decide_eq_true_iff.trans (compare_neg_iff key bound)
  | false => exact decide_eq_true_iff.trans (compare_pos_iff key bound)

/-- A scan of a range is a seek and the loop, in the direction of the comparison. -/
theorem scanRange_of_seek {κ σ : Type} [ArtKey κ] {s : Db sizes} {a b : κ} {fwd found : Bool} {ret : Int}
    {it : Iterator} {fn : σ → List UInt8 × List UInt8 → Bool × σ} {state : σ} (hret : Heads fwd ret)
    (hrun : Iterator.seek s a fwd = .ok (it, found)) :
    scanRange fn state s a b ret =
      scanLoop s fwd (within fwd (ArtKey.getKeyView b)) fn (s.next + 1) it state := by
  cases fwd with
  | true =>
    have hneg : ret < 0 := hret
    rw [scanRange, if_neg hneg.ne, decide_eq_true hneg]
    show (Iterator.seek s a true >>= _) = _
    rw [hrun]
    rfl
  | false =>
    have hpos : 0 < ret := hret
    rw [scanRange, if_neg hpos.ne', decide_eq_false (not_lt_of_gt hpos)]
    show (Iterator.seek s a false >>= _) = _
    rw [hrun]
    rfl

end Db

/-! ## 2. The loop of the scans -/

section Loop

variable {K : Set (List UInt8)} {path : NodePtr → List UInt8} {lost : NodeType → Nat} {s : Db sizes}
  {m : RefMap (BitVec 64)} (h : s.Inv K path lost) (hrep : Db.Represents U64Key.make s m)
include h hrep

/-- There are no more stored keys than leaves. -/
theorem length_le_next {keys : List (BitVec 64)} (hnodup : keys.Nodup)
    (hmem : ∀ k ∈ keys, k ∈ stored m) : keys.length ≤ s.next := by
  have hleaf : ∀ k : BitVec 64, ∃ a, k ∈ stored m →
      ∃ v, s.tree.heap a = some (.leaf (Db.view U64Key.make k) v) := by
    intro k
    by_cases hk : k ∈ stored m
    · obtain ⟨v, hv⟩ := Option.isSome_iff_exists.mp hk
      obtain ⟨a, ha⟩ := (hrep.binds_iff k v).mpr hv
      exact ⟨a, fun _ => ⟨v, ha⟩⟩
    · exact ⟨0, fun hk' => absurd hk' hk⟩
  choose f hf using hleaf
  have hinj : (keys.map f).Nodup := by
    refine hnodup.map_on fun a ha b hb heq => ?_
    obtain ⟨v, hv⟩ := hf a (hmem a ha)
    obtain ⟨w, hw⟩ := hf b (hmem b hb)
    rw [heq, hw] at hv
    exact Db.view_u64_injective (Body.leaf.inj (Option.some_inj.mp hv)).1.symm
  have hsub : keys.map f ⊆ List.range s.next := by
    intro a ha
    obtain ⟨k, hk, rfl⟩ := List.mem_map.mp ha
    obtain ⟨v, hv⟩ := hf k (hmem k hk)
    exact List.mem_range.mpr (h.accounted.lt_next hv)
  have hle := (List.subperm_of_subset hinj hsub).length_le
  rwa [List.length_map, List.length_range] at hle

/-- The loop visits the keys of a list that lists the keys from the position of the iterator on. -/
theorem scanLoop_spec {σ : Type} {fwd : Bool} {inside : List UInt8 → Bool}
    {fn : σ → List UInt8 × List UInt8 → Bool × σ} {keys : List (BitVec 64)} {fuel : Nat}
    {it : Iterator} {state : σ} (hit : it.Stands s keys[0]?)
    (hnext : ∀ n, Radix.Follows (Toward fwd) (stored m) keys[n]? keys[n + 1]?)
    (hfuel : keys.length < fuel) :
    Db.scanLoop s fwd inside fn fuel it state = .ok (visited fn state (entriesOf m
      (keys.takeWhile fun k => inside (Db.view U64Key.make k)))) := by
  induction keys generalizing fuel it state with
  | nil =>
    cases fuel with
    | zero => exact absurd hfuel (Nat.not_lt_zero _)
    | succ fuel =>
      have hvalid : it.valid = false := hit.shows hrep
      rw [Db.scanLoop, hvalid]
      rfl
  | cons a l ih =>
    cases fuel with
    | zero => exact absurd hfuel (Nat.not_lt_zero _)
    | succ fuel =>
      obtain ⟨hvalid, v, hv, hentry⟩ := hit.shows hrep
      rw [Db.scanLoop, if_pos hvalid, hentry]
      show (if inside (Db.view U64Key.make a) = true then _ else _) = _
      by_cases hin : inside (Db.view U64Key.make a)
      · have hfirst : ((m a).getD []) = v := by rw [hv]; rfl
        rw [if_pos hin, List.takeWhile_cons_of_pos (p := fun k => inside (Db.view U64Key.make k)) hin,
          entriesOf, List.map_cons, visited, hfirst]
        rcases hfn : fn state (Db.view U64Key.make a, v) with ⟨halt, state'⟩
        cases halt with
        | true => rfl
        | false =>
          obtain ⟨it', c', hmove, hit', hfollows⟩ := hit.advance h hrep fwd
          have hc : c' = l[0]? := hfollows.unique Iterator.toward_asymm (hnext 0)
          have hrest : Db.scanLoop s fwd inside fn fuel it' state' = _ :=
            ih (hc ▸ hit') (fun n => hnext (n + 1)) (Nat.lt_of_succ_lt_succ hfuel)
          show (Iterator.advance s fwd it.stack it.keybuf >>= _) = _
          rw [hmove]
          show (Db.scanLoop s fwd inside fn fuel it' state' >>= _) = _
          rw [hrest]
          rfl
      · rw [if_neg hin,
          List.takeWhile_cons_of_neg (p := fun k => inside (Db.view U64Key.make k)) hin]
        rfl

end Loop

/-! ## 3. Seeks -/

/-- The stored keys at or beyond a key. -/
def fromKey (m : RefMap (BitVec 64)) (fwd : Bool) (k : BitVec 64) : Set (BitVec 64) :=
  {x | x ∈ stored m ∧ (x = k ∨ Toward fwd k x)}

/-- What `seek` of a key promises, and with it the scans that start there: `scan_from`, and
    `scan_range` up to any bound in the direction. -/
structure SeekLaw (s : Db sizes) (m : RefMap (BitVec 64)) (k : BitVec 64) (fwd : Bool) : Prop where
  seek : ∃ it found c, Iterator.seek s (U64Key.make k) fwd = .ok (it, found) ∧
    (found = true ↔ (m k).isSome) ∧ it.Shows s m c ∧ Radix.Foremost (Toward fwd) (fromKey m fwd k) c
  scan_from : ∃ keys : List (BitVec 64), keys.Pairwise (Toward fwd) ∧
    (∀ x, x ∈ keys ↔ x ∈ fromKey m fwd k) ∧
    ∀ {σ : Type} (fn : σ → List UInt8 × List UInt8 → Bool × σ) (state : σ),
      Db.scanFrom fn state s (U64Key.make k) fwd = .ok (visited fn state (entriesOf m keys))
  scan_range : ∀ b, Toward fwd k b → ∃ keys : List (BitVec 64), keys.Pairwise (Toward fwd) ∧
    (∀ x, x ∈ keys ↔ x ∈ fromKey m fwd k ∧ Toward fwd x b) ∧
    ∀ {σ : Type} (fn : σ → List UInt8 × List UInt8 → Bool × σ) (state : σ),
      Db.scanRange fn state s (U64Key.make k) (U64Key.make b)
        (Db.cmpU64 (U64Key.make k) (U64Key.make b)) = .ok (visited fn state (entriesOf m keys))
  /-- Nothing lies between a key and itself. -/
  scan_range_self : ∀ {σ : Type} (fn : σ → List UInt8 × List UInt8 → Bool × σ) (state : σ),
    Db.scanRange fn state s (U64Key.make k) (U64Key.make k)
      (Db.cmpU64 (U64Key.make k) (U64Key.make k)) = .ok []

section Law

variable {K : Set (List UInt8)} {path : NodePtr → List UInt8} {lost : NodeType → Nat} {s : Db sizes}
  {m : RefMap (BitVec 64)} (h : s.Inv K path lost) (hrep : Db.Represents U64Key.make s m)
  {k : BitVec 64} {fwd : Bool}
include h hrep

omit h in
theorem mem_keys_iff : Db.view U64Key.make k ∈ s.tree.Keys ↔ (m k).isSome := by
  constructor
  · rintro ⟨v, hv⟩
    rw [(hrep.binds_iff k v).mp hv]
    rfl
  · intro hk
    obtain ⟨v, hv⟩ := Option.isSome_iff_exists.mp hk
    exact ⟨v, (hrep.binds_iff k v).mpr hv⟩

omit h in
/-- An iterator where a seek should lead is the cursor at the first stored key from the search key. -/
theorem stands_of_seeks {it : Iterator}
    (hseeks : Iterator.Seeks s.tree fwd (Db.view U64Key.make k) it) :
    ∃ c, it.Stands s c ∧ Radix.Foremost (Toward fwd) (fromKey m fwd k) c := by
  have hview : ∀ {x y : BitVec 64}, AtOrBeyond fwd (Db.view U64Key.make x) (Db.view U64Key.make y) ↔
      y = x ∨ Toward fwd x y := fun {x y} =>
    or_congr ⟨fun heq => Db.view_u64_injective heq, fun heq => heq ▸ rfl⟩
      (Db.view_u64_toward_iff x y)
  rcases hseeks with ⟨hend, hnone⟩ | ⟨k', v, hon, hfirst⟩
  · refine ⟨none, hend, Set.eq_empty_iff_forall_notMem.mpr ?_⟩
    rintro x ⟨hx, hkx⟩
    obtain ⟨v, hv⟩ := Iterator.binds_of_stored hrep hx
    exact hnone hv (hview.mpr hkx)
  · obtain ⟨a, ha, rfl⟩ := Iterator.exists_key hrep hon.binds
    refine ⟨some a, ⟨v, hon⟩, ⟨ha, hview.mp hfirst.mem⟩, ?_⟩
    rintro x ⟨hx, hkx⟩
    obtain ⟨w, hw⟩ := Iterator.binds_of_stored hrep hx
    exact hview.mp (hfirst.first hw (hview.mpr hkx))

omit h hrep in
/-- The keys from the first one at or beyond the search key on are visited one after the other. -/
theorem follows_from {keys : List (BitVec 64)} (hsorted : keys.Pairwise (Toward fwd))
    (hmem : ∀ x, x ∈ keys ↔ x ∈ fromKey m fwd k) (n : Nat) :
    Radix.Follows (Toward fwd) (stored m) keys[n]? keys[n + 1]? := by
  have hfollows := Radix.follows_getElem? hsorted hmem Iterator.toward_asymm n
  cases hn : keys[n]? with
  | none =>
    rw [hn] at hfollows
    exact hfollows
  | some a =>
    rw [hn] at hfollows
    have ha := (hmem a).mp (List.mem_of_getElem? hn)
    -- Beyond a key at or beyond `k` all stored keys are beyond `k`.
    have hset : {b | b ∈ stored m ∧ Toward fwd a b} =
        {b | b ∈ fromKey m fwd k ∧ Toward fwd a b} := by
      ext b
      constructor
      · rintro ⟨hb, hab⟩
        refine ⟨⟨hb, .inr ?_⟩, hab⟩
        rcases ha.2 with rfl | hka
        · exact hab
        · exact toward_trans hka hab
      · rintro ⟨⟨hb, -⟩, hab⟩
        exact ⟨hb, hab⟩
    show Radix.Foremost _ _ _
    rw [hset]
    exact hfollows

end Law

theorem exists_sorted_toward {T : Set (BitVec 64)} (hfin : T.Finite) (fwd : Bool) :
    ∃ keys : List (BitVec 64), keys.Pairwise (Toward fwd) ∧ ∀ k, k ∈ keys ↔ k ∈ T := by
  obtain ⟨keys, hsorted, hmem⟩ := Iterator.exists_sorted hfin
  cases fwd with
  | true => exact ⟨keys, hsorted, hmem⟩
  | false => exact ⟨keys.reverse, List.pairwise_reverse.mpr hsorted, fun k => by
      rw [List.mem_reverse, hmem]⟩

section Iff

variable {path : NodePtr → List UInt8} {lost : NodeType → Nat} {s : Db sizes} {m : RefMap (BitVec 64)}
  (h : s.Inv Db.u64Views path lost) (hrep : Db.Represents U64Key.make s m) (hfin : (stored m).Finite)
  (k : BitVec 64) (fwd : Bool)
include h

theorem seek_u64_spec : ∃ it found, Iterator.seek s (U64Key.make k) fwd = .ok (it, found) ∧
    Iterator.SeekResult s.tree fwd (Db.view U64Key.make k) .invalid it found :=
  Iterator.seek_spec h.tree Db.u64Views_prefixFree fwd h.heightLE fun _ _ hp =>
    h.tree.not_isPrefix_path Db.u64Views_prefixFree (Db.view_mem_u64Views k) hp

include hrep

/-- A seek that keeps its promise does not end at a dead end. -/
theorem SeekLaw.not_deadEnd (hlaw : SeekLaw s m k fwd) :
    ¬ DeadEnd s.tree.Keys (Db.view U64Key.make k) fwd := by
  intro hdead
  obtain ⟨it, found, c, hrun, -, hshows, hc⟩ := hlaw.seek
  obtain ⟨it', found', hrun', hresult⟩ := seek_u64_spec h k fwd
  cases hrun.symm.trans hrun'
  obtain ⟨-, -, -, -, -, x, ⟨v, hx⟩, hkx⟩ := id hdead
  obtain ⟨a, ha, rfl⟩ := Iterator.exists_key hrep (Tree.binds_iff.mpr hx)
  have hka : a ∈ fromKey m fwd k := ⟨ha, .inr ((Db.view_u64_toward_iff k a).mp hkx)⟩
  cases c with
  | none =>
    have hempty : fromKey m fwd k = ∅ := hc
    rw [hempty] at hka
    exact hka
  | some b =>
    obtain ⟨hvalid, w, -, hentry⟩ := hshows
    rcases hresult.dead_end hdead with hnil | ⟨k', v', hon, hlt⟩
    · rw [Iterator.valid, hnil] at hvalid
      cases hvalid
    · obtain ⟨b', -, rfl⟩ := Iterator.exists_key hrep hon.binds
      have hstands : it.Stands s (some b') := ⟨v', hon⟩
      obtain ⟨-, w', -, hentry'⟩ := hstands.shows hrep
      rw [hentry'] at hentry
      have hbb : b' = b := Db.view_u64_injective (Prod.mk.inj (Except.ok.inj hentry)).1
      have hlt' := (Db.view_u64_toward_iff b' k).mp hlt
      rcases hc.1.2 with heq | hkb
      · rw [hbb, heq] at hlt'
        exact Iterator.toward_asymm hlt' hlt'
      · rw [hbb] at hlt'
        exact Iterator.toward_asymm hlt' hkb

include hfin

theorem SeekLaw.of_not_deadEnd (hdead : ¬ DeadEnd s.tree.Keys (Db.view U64Key.make k) fwd) :
    SeekLaw s m k fwd := by
  obtain ⟨it, found, hrun, hresult⟩ := seek_u64_spec h k fwd
  obtain ⟨c, hit, hc⟩ := stands_of_seeks hrep (hresult.seeks_iff.mpr hdead)
  have hfin' : (fromKey m fwd k).Finite := hfin.subset fun x hx => hx.1
  obtain ⟨keys, hsorted, hmem⟩ := exists_sorted_toward hfin' fwd
  have hc0 : c = keys[0]? := hc.unique Iterator.toward_asymm (Radix.foremost_head? hsorted hmem)
  have hnodup : keys.Nodup := hsorted.imp fun {a b} hab (heq : a = b) =>
    Iterator.toward_asymm hab (heq ▸ hab)
  have hlen : keys.length < s.next + 1 :=
    Nat.lt_succ_of_le (length_le_next h hrep hnodup fun x hx => ((hmem x).mp hx).1)
  have hloop : ∀ {σ : Type} (inside : List UInt8 → Bool)
      (fn : σ → List UInt8 × List UInt8 → Bool × σ) (state : σ),
      Db.scanLoop s fwd inside fn (s.next + 1) it state = .ok (visited fn state (entriesOf m
        (keys.takeWhile fun k => inside (Db.view U64Key.make k)))) := fun inside fn state =>
    scanLoop_spec h hrep (hc0 ▸ hit) (follows_from hsorted hmem) hlen
  constructor
  · exact ⟨it, found, c, hrun, hresult.matches_iff.trans (mem_keys_iff hrep),
      hit.shows hrep, hc⟩
  · refine ⟨keys, hsorted, hmem, fun fn state => ?_⟩
    rw [Db.scanFrom, hrun]
    show Db.scanLoop s fwd (fun _ => true) fn (s.next + 1) it state = _
    rw [hloop, List.takeWhile_eq_self_iff.mpr fun _ _ => rfl]
  · intro b hkb
    refine ⟨keys.takeWhile fun x => Db.within fwd (Db.view U64Key.make b) (Db.view U64Key.make x),
      hsorted.sublist (List.takeWhile_sublist _), fun x => ?_, fun fn state => ?_⟩
    · -- The bound cuts the sorted list.
      have hcut : ∀ {x : BitVec 64}, Db.within fwd (Db.view U64Key.make b) (Db.view U64Key.make x) ↔
          Toward fwd x b := (Db.within_iff _ _).trans (Db.view_u64_toward_iff _ _)
      rw [mem_takeWhile_iff hsorted fun hab hb => hcut.mpr (toward_trans hab (hcut.mp hb)), hmem,
        hcut]
    · have hret : Db.Heads fwd (Db.cmpU64 (U64Key.make k) (U64Key.make b)) := by
        rw [Db.cmpU64_eq_compare, Db.heads_compare_iff]
        exact (Db.view_u64_toward_iff k b).mpr hkb
      rw [Db.scanRange_of_seek hret hrun]
      exact hloop _ fn state
  · intro σ fn state
    rw [Db.cmpU64_eq_compare, (compare_eq_zero_iff _ _).mpr rfl]
    rfl

end Iff

namespace Db

/-- A seek keeps its promise unless it ends at a dead end of the stored keys. -/
theorem run_u64_seek_iff (calls : List (Call (BitVec 64))) (k : BitVec 64) (fwd : Bool) :
    SeekLaw (run U64Key.make calls (Db.empty sizes)).2
        (RefMap.run (fun _ v => valueRefusal v) calls fun _ => none).2 k fwd ↔
      ¬ DeadEnd (viewKeys U64Key.make
        (RefMap.run (fun _ v => valueRefusal v) calls fun _ => none).2) (view U64Key.make k) fwd := by
  obtain ⟨-, ⟨path, lost, hinv⟩, hrep⟩ := run_u64_spec calls
  have hfin : (stored (RefMap.run (fun _ v => valueRefusal v) calls fun _ => none).2).Finite :=
    finite_stored _ calls
      (Set.Finite.subset Set.finite_empty fun k hk => by cases hk)
  rw [← hrep.keys_eq]
  exact ⟨SeekLaw.not_deadEnd hinv hrep k fwd, SeekLaw.of_not_deadEnd hinv hrep hfin k fwd⟩

/-- The key of the entry at which a seek ends. -/
def landing (s : Db sizes) (k : BitVec 64) (fwd : Bool) : Option (List UInt8) :=
  match Iterator.seek s (U64Key.make k) fwd with
  | .ok (it, _) => (it.entry s.tree).toOption.map Prod.fst
  | .error _ => none

theorem landing_of_seek {s : Db sizes} {k : BitVec 64} {fwd found : Bool} {it : Iterator}
    (hrun : Iterator.seek s (U64Key.make k) fwd = .ok (it, found)) :
    landing s k fwd = (it.entry s.tree).toOption.map Prod.fst := by
  rw [landing, hrun]

/-- With the keys 0x0101, 0x0102, 0x0201 and 0x010000 a seek of 0x0103 goes back to 0x0101. -/
theorem seekLaw_fails :
    ¬ SeekLaw (run U64Key.make [.insert 0x0101 [], .insert 0x0102 [], .insert 0x0201 [],
        .insert 0x010000 []] (Db.empty .db)).2
      (RefMap.run (fun _ v => valueRefusal v) [.insert 0x0101 [], .insert 0x0102 [],
        .insert 0x0201 [], .insert 0x010000 []] fun _ => none).2 0x0103 true := by
  rintro ⟨⟨it, found, c, hrun, -, hshows, hc⟩, -, -, -⟩
  have hlanding : landing (run U64Key.make [.insert 0x0101 [], .insert 0x0102 [], .insert 0x0201 [],
      .insert 0x010000 []] (Db.empty .db)).2 0x0103 true = some (view U64Key.make 0x0101) := by
    decide +kernel
  rw [landing_of_seek hrun] at hlanding
  cases c with
  | none =>
    have hnil : it.stack = [] := by simpa [Iterator.Shows, Iterator.valid] using hshows
    simp [Iterator.entry, hnil, Except.toOption] at hlanding
  | some a =>
    obtain ⟨-, v, -, hentry⟩ := hshows
    rw [hentry] at hlanding
    have ha : a = 0x0101 := view_u64_injective (Option.some_inj.mp hlanding)
    rcases hc.1.2 with heq | hlt
    · exact absurd (ha.symm.trans heq) (by decide)
    · exact absurd (ha ▸ hlt : Toward true (0x0103 : BitVec 64) 0x0101) (by
        unfold Toward
        decide)

end Db

end Unodb
