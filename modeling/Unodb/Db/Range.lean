import Mathlib.Data.Set.Card
import Unodb.Db.Keybuf
import Unodb.Db.Scan

/-!
# Scans of a range of byte-string keys

`scan_range` compares its two keys as internal keys.  Of a `key_view` that compares the bytes of the
objects: first the addresses of the keys, then their lengths.
-/

open Words

namespace Unodb

/-- A key and a value. -/
abbrev Entry := List UInt8 × List UInt8

/-- What a scan calls with its state and an entry, and whether the scan halts there. -/
abbrev Visitor (σ : Type) := σ → Entry → Bool × σ

/-- The bytes of a word in memory. -/
def nativeBytes (w : BitVec 64) : List UInt8 := (List.range 8).map (wordByte w)

/-- A `key_view`, `std::span<const std::byte>`, and the bytes that it views. -/
structure ViewObject where
  data : BitVec 64
  bytes : List UInt8
  size_lt : bytes.length < 2 ^ 64

/-- A search key that ends at or before a branching of the stored keys. -/
def EndsEarly (K : Set (List UInt8)) (k : List UInt8) : Prop :=
  ∃ w, Radix.Branching K w ∧ k <+: w

/-! ## 1. Comparison of objects -/

namespace ViewObject

/-- `size_bytes`. -/
def size (x : ViewObject) : BitVec 64 := BitVec.ofNat 64 x.bytes.length

/-- The object itself: a pointer and a length. -/
def objectBytes (x : ViewObject) : List UInt8 := nativeBytes x.data ++ nativeBytes x.size

/-- The internal key. -/
def toKey (x : ViewObject) : KeyView := ⟨x.bytes⟩

/-- `basic_art_key<key_view>::cmp` of two internal keys. -/
def cmp (x y : ViewObject) : Int := compare x.objectBytes y.objectBytes

/-- The direction of `scan_range`, or none where it returns at once. -/
def scanDirection (x y : ViewObject) : Option Bool :=
  if x.cmp y = 0 then none else some (decide (x.cmp y < 0))

/-- Where two keys lie in memory, in a direction: their addresses are in order with the low byte taken
    first, or they lie at one address and their lengths are. -/
def PlacedToward (fwd : Bool) (x y : ViewObject) : Prop :=
  Toward fwd (bswap x.data) (bswap y.data) ∨
    x.data = y.data ∧ Toward fwd (bswap x.size) (bswap y.size)

end ViewObject

theorem nativeBytes_length (w : BitVec 64) : (nativeBytes w).length = 8 := by
  rw [nativeBytes, List.length_map, List.length_range]

/-- A word in memory is the internal key of the swapped word. -/
theorem nativeBytes_eq_view (w : BitVec 64) : nativeBytes w = Db.view U64Key.make (bswap w) := by
  show nativeBytes w = nativeBytes (bswap (bswap w))
  rw [bswap_bswap]

theorem nativeBytes_injective : Function.Injective nativeBytes := by
  intro a b hab
  rw [nativeBytes_eq_view, nativeBytes_eq_view] at hab
  have hswap : bswap a = bswap b := Db.view_u64_injective hab
  rw [← bswap_bswap a, hswap, bswap_bswap]

theorem toward_nativeBytes_iff {fwd : Bool} (a b : BitVec 64) :
    Toward fwd (nativeBytes a) (nativeBytes b) ↔ Toward fwd (bswap a) (bswap b) := by
  rw [nativeBytes_eq_view, nativeBytes_eq_view]
  exact Db.view_u64_toward_iff _ _

theorem append_lt_append_iff {a b c d : List UInt8} (hlen : a.length = c.length) :
    a ++ b < c ++ d ↔ a < c ∨ a = c ∧ b < d := by
  induction a generalizing c with
  | nil =>
    obtain rfl : c = [] := List.length_eq_zero_iff.mp hlen.symm
    simp
  | cons x a ih =>
    cases c with
    | nil => cases hlen
    | cons y c =>
      have hlen' : a.length = c.length := Nat.succ.inj hlen
      rw [List.cons_append, List.cons_append, List.cons_lt_cons_iff, List.cons_lt_cons_iff,
        ih hlen', List.cons_eq_cons]
      tauto

theorem toward_append_iff {fwd : Bool} {a b c d : List UInt8} (hlen : a.length = c.length) :
    Toward fwd (a ++ b) (c ++ d) ↔ Toward fwd a c ∨ a = c ∧ Toward fwd b d := by
  cases fwd with
  | true => exact append_lt_append_iff hlen
  | false =>
    show c ++ d < a ++ b ↔ c < a ∨ a = c ∧ d < b
    rw [append_lt_append_iff hlen.symm, eq_comm]

namespace ViewObject

variable {fwd : Bool} {x y : ViewObject}

/-- The comparison tells where the keys lie. -/
theorem heads_cmp_iff : Db.Heads fwd (x.cmp y) ↔ x.PlacedToward fwd y := by
  rw [cmp, Db.heads_compare_iff, objectBytes, objectBytes,
    toward_append_iff ((nativeBytes_length _).trans (nativeBytes_length _).symm), toward_nativeBytes_iff,
    toward_nativeBytes_iff, nativeBytes_injective.eq_iff, PlacedToward]

theorem scanDirection_eq_some_iff : x.scanDirection y = some fwd ↔ x.PlacedToward fwd y := by
  rw [← heads_cmp_iff, scanDirection]
  split
  case isTrue hzero =>
    refine iff_of_false (fun hsome => by cases hsome) ?_
    rw [hzero]
    cases fwd <;> exact lt_irrefl 0
  case isFalse hne =>
    rw [Option.some_inj]
    cases fwd with
    | true => exact decide_eq_true_iff
    | false =>
      show decide (x.cmp y < 0) = false ↔ 0 < x.cmp y
      rw [decide_eq_false_iff_not]
      omega

end ViewObject

/-! ## 2. The loop of the scans -/

section Loop

variable {K : Set (List UInt8)} {path : NodePtr → List UInt8} {lost : NodeType → Nat} {s : Db sizes}
  (h : s.Inv K path lost)
include h

/-- There are no more stored keys than leaves. -/
theorem Db.Inv.keys_card : s.tree.Keys.Finite ∧ s.tree.Keys.ncard ≤ s.next := by
  have hleaf : ∀ k : List UInt8, ∃ a, k ∈ s.tree.Keys → ∃ v, s.tree.heap a = some (.leaf k v) := by
    intro k
    by_cases hk : k ∈ s.tree.Keys
    · obtain ⟨v, a, ha⟩ := hk
      exact ⟨a, fun _ => ⟨v, ha⟩⟩
    · exact ⟨0, fun hk' => absurd hk' hk⟩
  choose f hf using hleaf
  have hmaps : ∀ k ∈ s.tree.Keys, f k ∈ ((Finset.range s.next : Finset Nat) : Set Nat) := by
    intro k hk
    obtain ⟨v, hv⟩ := hf k hk
    exact Finset.mem_coe.mpr (Finset.mem_range.mpr (h.accounted.lt_next hv))
  have hinj : Set.InjOn f s.tree.Keys := by
    intro k hk k' hk' heq
    obtain ⟨v, hv⟩ := hf k hk
    obtain ⟨v', hv'⟩ := hf k' hk'
    rw [heq, hv'] at hv
    exact (Body.leaf.inj (Option.some_inj.mp hv)).1.symm
  refine ⟨Set.Finite.of_injOn hmaps hinj (Finset.finite_toSet _), ?_⟩
  have hcard := Set.ncard_le_ncard_of_injOn f hmaps hinj (Finset.finite_toSet _)
  rwa [Set.ncard_coe_finset, Finset.card_range] at hcard

/-- The stored keys beyond a string. -/
def Tree.beyond (t : Tree) (fwd : Bool) (k : List UInt8) : Set (List UInt8) :=
  {x | x ∈ t.Keys ∧ Toward fwd k x}

omit h in
theorem Toward.trans {α : Type} [Preorder α] {fwd : Bool} {a b c : α} (hab : Toward fwd a b)
    (hbc : Toward fwd b c) : Toward fwd a c := by
  cases fwd with
  | true => exact lt_trans (show a < b from hab) hbc
  | false => exact lt_trans (show c < b from hbc) hab

theorem beyond_ncard_lt {fwd : Bool} {k k' : List UInt8} (hk' : k' ∈ s.tree.beyond fwd k) :
    (s.tree.beyond fwd k').ncard < (s.tree.beyond fwd k).ncard := by
  have hfin : (s.tree.beyond fwd k).Finite := h.keys_card.1.subset fun x hx => hx.1
  refine Set.ncard_lt_ncard ⟨fun x hx => ⟨hx.1, hk'.2.trans hx.2⟩, fun hsub => ?_⟩ hfin
  exact Toward.irrefl k' (hsub hk').2

namespace Iterator

omit h in
/-- The entry under an iterator. -/
theorem On.entry_eq {t : Tree} {it : Iterator} {k v : List UInt8} (hon : it.On t k v) :
    it.valid = true ∧ it.entry t = .ok (k, v) := by
  obtain ⟨stack, slot, p, hstack, -, -, hp⟩ := hon.at_leaf
  have htype : (leafEntry p).node.type = .leaf := (Tree.deref_eq_some_iff.mp hp).2.symm
  refine ⟨by rw [valid, hstack]; rfl, ?_⟩
  rw [entry, hstack]
  show (assertThat ((leafEntry p).node.type = .leaf) >>= _) = _
  rw [assertThat_pos htype]
  exact Tree.readLeaf_ok hp

omit h in
theorem placed_of_on {t : Tree} {it : Iterator} {P : List UInt8 → Prop}
    (hit : it.stack = [] ∨ ∃ k v, it.On t k v ∧ P k) : it.Placed t := by
  rcases hit with hend | ⟨k, v, hon, -⟩
  · exact .inl hend
  · exact .inr ⟨k, v, hon⟩

/-- From a leaf `next` and `prior` lead to the end or to a key beyond. -/
theorem On.advance_cases {it : Iterator} {k v : List UInt8} (hon : it.On s.tree k v) (fwd : Bool) :
    ∃ it', advance s fwd it.stack it.keybuf = .ok it' ∧
      (it'.stack = [] ∨ ∃ k' v', it'.On s.tree k' v' ∧ k' ∈ s.tree.beyond fwd k) := by
  obtain ⟨it', hrun, hreach⟩ := hon.advance_spec h.tree fwd h.heightLE
  refine ⟨it', hrun, ?_⟩
  rcases hreach with ⟨hend, -⟩ | ⟨k', v', hon', hnext⟩
  · exact .inl hend
  · exact .inr ⟨k', v', hon', ⟨v', Tree.binds_iff.mp hon'.binds⟩, toward_of_precedes hnext.after⟩

end Iterator

omit h in
theorem scanLoop_end {σ : Type} {fwd : Bool} {inside : List UInt8 → Bool} {fn : Visitor σ}
    {fuel : Nat} {it : Iterator} {state : σ} (hend : it.stack = []) :
    Db.scanLoop s fwd inside fn (fuel + 1) it state = .ok [] := by
  have hvalid : it.valid = false := by rw [Iterator.valid, hend]; rfl
  rw [Db.scanLoop, hvalid]
  rfl

omit h in
theorem scanLoop_outside {σ : Type} {fwd : Bool} {inside : List UInt8 → Bool} {fn : Visitor σ}
    {fuel : Nat} {it : Iterator} {state : σ} {k v : List UInt8} (hon : it.On s.tree k v)
    (hout : inside k = false) : Db.scanLoop s fwd inside fn (fuel + 1) it state = .ok [] := by
  obtain ⟨hvalid, hentry⟩ := hon.entry_eq
  rw [Db.scanLoop, if_pos hvalid, hentry]
  show (if inside k = true then _ else _) = _
  rw [hout]
  rfl

/-- The loop offers the function a list of entries in the order of the direction.  The list is empty
    unless the entry under the iterator is inside the bound. -/
theorem scanLoop_offers {fwd : Bool} (inside : List UInt8 → Bool) {fuel : Nat} {it : Iterator}
    (hit : it.Placed s.tree)
    (hfuel : ∀ k v, it.On s.tree k v → (s.tree.beyond fwd k).ncard + 1 ≤ fuel) :
    ∃ entries : List Entry, (∀ {σ : Type} (fn : Visitor σ) (state : σ),
        Db.scanLoop s fwd inside fn (fuel + 1) it state = .ok (visited fn state entries)) ∧
      entries.Pairwise (fun e e' => Toward fwd e.1 e'.1) ∧
      (∀ e ∈ entries, ∃ k v, it.On s.tree k v ∧ (e.1 = k ∨ Toward fwd k e.1)) ∧
      (entries = [] ↔ ∀ k v, it.On s.tree k v → inside k = false) := by
  have hnone : ∀ fuel {it : Iterator}, it.stack = [] →
      (∀ {σ : Type} (fn : Visitor σ) (state : σ),
        Db.scanLoop s fwd inside fn (fuel + 1) it state = .ok (visited fn state [])) ∧
      ∀ k v, it.On s.tree k v → inside k = false := fun fuel it hend =>
    ⟨fun _ _ => scanLoop_end hend, fun _ _ hon => absurd hend hon.ne_nil⟩
  induction fuel generalizing it with
  | zero =>
    rcases hit with hend | ⟨k, v, hon⟩
    · obtain ⟨hrun, hout⟩ := hnone 0 hend
      exact ⟨[], hrun, .nil, fun e he => absurd he List.not_mem_nil, iff_of_true rfl hout⟩
    · exact absurd (hfuel k v hon) (Nat.not_succ_le_zero _)
  | succ fuel ih =>
    rcases hit with hend | ⟨k, v, hon⟩
    · obtain ⟨hrun, hout⟩ := hnone (fuel + 1) hend
      exact ⟨[], hrun, .nil, fun e he => absurd he List.not_mem_nil, iff_of_true rfl hout⟩
    cases hin : inside k with
    | false =>
      refine ⟨[], fun _ _ => scanLoop_outside hon hin, .nil,
        fun e he => absurd he List.not_mem_nil, iff_of_true rfl fun k' v' hon' => ?_⟩
      rw [(hon'.unique hon).1, hin]
    | true =>
      obtain ⟨hvalid, hentry⟩ := hon.entry_eq
      have hroom := hfuel k v hon
      obtain ⟨it', hmove, hnext⟩ := hon.advance_cases h fwd
      have hplaced : it'.Placed s.tree := Iterator.placed_of_on hnext
      have hmem : ∀ {k' v'}, it'.On s.tree k' v' → k' ∈ s.tree.beyond fwd k := by
        intro k' v' hon'
        rcases hnext with hend | ⟨k₁, v₁, hon₁, hmem⟩
        · exact absurd hend hon'.ne_nil
        · exact (hon'.unique hon₁).1 ▸ hmem
      obtain ⟨entries, hrun, hsorted, hfrom, -⟩ := ih hplaced fun k' v' hon' => by
        have hlt := beyond_ncard_lt h (hmem hon')
        omega
      -- What is visited later lies beyond the current key.
      have hbeyond : ∀ e ∈ entries, Toward fwd k e.1 := by
        intro e he
        obtain ⟨k', v', hon', heq | hlt⟩ := hfrom e he
        · exact heq ▸ (hmem hon').2
        · exact (hmem hon').2.trans hlt
      refine ⟨(k, v) :: entries, fun fn state => ?_, List.pairwise_cons.mpr ⟨hbeyond, hsorted⟩,
        fun e he => ⟨k, v, hon, ?_⟩, iff_of_false (List.cons_ne_nil _ _) fun hout => ?_⟩
      · rw [Db.scanLoop, if_pos hvalid, hentry, visited]
        show (if inside k = true then _ else _) = _
        rw [if_pos hin]
        rcases fn state (k, v) with ⟨halt, state'⟩
        cases halt with
        | true => rfl
        | false =>
          show (Iterator.advance s fwd it.stack it.keybuf >>= _) = _
          rw [hmove]
          show (Db.scanLoop s fwd inside fn (fuel + 1) it' state' >>= _) = _
          rw [hrun]
          rfl
      · rcases List.mem_cons.mp he with rfl | he'
        · exact .inl rfl
        · exact .inr (hbeyond e he')
      · rw [hout k v hon] at hin
        cases hin

end Loop

/-! ## 3. The law of range scans -/

/-- `scan_range` of a `db<key_view>`. -/
def Db.scanRangeView {σ : Type} (fn : Visitor σ) (state : σ) (s : Db sizes) (x y : ViewObject) :
    Except Fault (List Entry) :=
  Db.scanRange fn state s x.toKey y.toKey (x.cmp y)

/-- The scan from `x` to `y` visits these entries. -/
def Db.Visits (s : Db sizes) {σ : Type} (fn : Visitor σ) (state : σ) (x y : ViewObject)
    (entries : List Entry) : Prop :=
  Db.scanRangeView fn state s x y = .ok entries

/-- Two scans, from `x` to `y` and from `x'` to `y'`, go through one list of entries up to where their
    functions halt: no entries between equal bytes, and else the direction and the order of the list
    are those of the bytes. -/
structure RangeLaw (visits : ∀ {σ : Type}, Visitor σ → σ → ViewObject → ViewObject → List Entry → Prop)
    (x y x' y' : ViewObject) (entries : List Entry) : Prop where
  left : ∀ {σ : Type} (fn : Visitor σ) (state : σ), visits fn state x y (visited fn state entries)
  right : ∀ {σ : Type} (fn : Visitor σ) (state : σ), visits fn state x' y' (visited fn state entries)
  nothing : x.bytes = y.bytes → entries = []
  directed : ∀ {fwd}, Toward fwd x.bytes y.bytes →
    x.scanDirection y = some fwd ∧ x'.scanDirection y' = some fwd ∧
      entries.Pairwise fun e e' => Toward fwd e.1 e'.1

/-- The keys of a range lie in memory as they are ordered, and the seek of the first one, where there
    is one, does not read past its end.  Of keys with equal bytes it does not go back from a dead
    end either. -/
structure RangeRegular (K : Set (List UInt8)) (x y : ViewObject) : Prop where
  placed : ∀ {fwd}, Toward fwd x.bytes y.bytes → x.PlacedToward fwd y
  sought : ∀ {fwd}, x.PlacedToward fwd y → ¬ EndsEarly K x.bytes
  settled : x.bytes = y.bytes → ∀ {fwd}, x.PlacedToward fwd y → ¬ Stranded K x.bytes fwd

section Law

variable {K : Set (List UInt8)} {path : NodePtr → List UInt8} {lost : NodeType → Nat} {s : Db sizes}
  {x y x' y' : ViewObject} {fwd : Bool}

/-- A scan whose seek ends in a fault does too. -/
theorem Db.scanRange_of_seek_error {κ σ : Type} [ArtKey κ] {a b : κ} {ret : Int} {fn : Visitor σ}
    {state : σ} {fault : Fault} (hret : Db.Heads fwd ret)
    (hrun : Iterator.seek s a fwd = .error fault) :
    Db.scanRange fn state s a b ret = .error fault := by
  cases fwd with
  | true =>
    have hneg : ret < 0 := hret
    rw [Db.scanRange, if_neg hneg.ne, decide_eq_true hneg]
    show (Iterator.seek s a true >>= _) = _
    rw [hrun]
    rfl
  | false =>
    have hpos : 0 < ret := hret
    rw [Db.scanRange, if_neg hpos.ne', decide_eq_false (not_lt_of_gt hpos)]
    show (Iterator.seek s a false >>= _) = _
    rw [hrun]
    rfl

/-- Keys with one address, and of one length, are not told apart. -/
theorem visits_nothing (hnot : ∀ fwd, ¬ x.PlacedToward fwd y) {σ : Type} (fn : Visitor σ) (state : σ) :
    s.Visits fn state x y [] := by
  have hzero : x.cmp y = 0 := by
    have hneg : ¬ x.cmp y < 0 := fun hneg => hnot true (ViewObject.heads_cmp_iff.mp hneg)
    have hpos : ¬ 0 < x.cmp y := fun hpos => hnot false (ViewObject.heads_cmp_iff.mp hpos)
    omega
  show Db.scanRange fn state s x.toKey y.toKey (x.cmp y) = _
  rw [Db.scanRange, if_pos hzero]
  rfl

theorem visited_never (entries : List Entry) :
    visited (fun (_ : Unit) (_ : Entry) => (false, ())) () entries = entries := by
  induction entries with
  | nil => rfl
  | cons e es ih => exact congrArg (e :: ·) ih

theorem SeekResult.placed {t : Tree} {k : List UInt8} {it₀ it : Iterator} {m : Bool}
    (hresult : Iterator.SeekResult t fwd k it₀ it m) : it.Placed t := by
  by_cases hdead : DeadEnd t.Keys k fwd
  · exact Iterator.placed_of_on (hresult.dead_end hdead)
  · exact Iterator.placed_of_on ((hresult.seeks_iff.mpr hdead).imp And.left id)

variable (h : s.Inv K path lost) (hfree : Radix.PrefixFree K)
include h

theorem not_visits_of_endsEarly (hearly : EndsEarly s.tree.Keys x.bytes) (hplaced : x.PlacedToward fwd y)
    {σ : Type} (fn : Visitor σ) (state : σ) (entries : List Entry) : ¬ s.Visits fn state x y entries := by
  intro hvisits
  obtain ⟨w, hw, hkw⟩ := hearly
  obtain ⟨fault, hrun⟩ : ∃ fault, Iterator.seek s x.toKey fwd = .error fault :=
    Iterator.seek_ends h.tree hw hkw
  have hok : Db.scanRange fn state s x.toKey y.toKey (x.cmp y) = .ok entries := hvisits
  rw [Db.scanRange_of_seek_error (ViewObject.heads_cmp_iff.mpr hplaced) hrun] at hok
  cases hok

include hfree

/-- Keys that lie in a direction: the scan goes from the first key at or beyond `a` on, unless the
    seek of `a` goes back. -/
theorem scanRangeView_offers (fwd : Bool) (a b : List UInt8) (hearly : ¬ EndsEarly s.tree.Keys a) :
    ∃ entries : List Entry, (∀ {x y : ViewObject}, x.bytes = a → y.bytes = b → x.PlacedToward fwd y →
        ∀ {σ : Type} (fn : Visitor σ) (state : σ), s.Visits fn state x y (visited fn state entries)) ∧
      entries.Pairwise (fun e e' => Toward fwd e.1 e'.1) ∧
      (a = b → (entries = [] ↔ ¬ Stranded s.tree.Keys a fwd)) := by
  obtain ⟨it, found, hrun, hresult⟩ := Iterator.seek_spec (k := KeyView.mk a) h.tree hfree fwd h.heightLE
    fun p n hp hkp => hearly ⟨path p, h.tree.branching hp, hkp⟩
  have hstranded : _ ↔ Stranded s.tree.Keys a fwd := hresult.before_iff
  have hroom : ∀ k v, it.On s.tree k v → (s.tree.beyond fwd k).ncard + 1 ≤ s.next := by
    intro k v hon
    obtain ⟨hfin, hcard⟩ := h.keys_card
    have hk : k ∈ s.tree.Keys := ⟨v, Tree.binds_iff.mp hon.binds⟩
    have hlt : (s.tree.beyond fwd k).ncard < s.tree.Keys.ncard :=
      Set.ncard_lt_ncard ⟨fun x hx => hx.1, fun hsub => Toward.irrefl k (hsub hk).2⟩ hfin
    omega
  obtain ⟨entries, hloop, hsorted, -, hnil⟩ :=
    scanLoop_offers h (Db.within fwd b) (SeekResult.placed hresult) hroom
  refine ⟨entries, fun {x y} hx hy hplaced {σ} fn state => ?_, hsorted, ?_⟩
  · subst hx hy
    exact (Db.scanRange_of_seek (ViewObject.heads_cmp_iff.mpr hplaced) hrun).trans (hloop fn state)
  · rintro rfl
    rw [hnil, ← hstranded, not_exists]
    refine forall_congr' fun k => ?_
    rw [not_exists]
    refine forall_congr' fun v => ?_
    rw [not_and, ← Bool.not_eq_true, Db.within_iff]
    rfl

/-- Two scans keep the law only if each range is regular. -/
theorem RangeLaw.regular {entries : List Entry}
    (hlaw : RangeLaw (fun fn state => s.Visits fn state) x y x' y' entries) :
    RangeRegular s.tree.Keys x y := by
  have hsought : ∀ {fwd}, x.PlacedToward fwd y → ¬ EndsEarly s.tree.Keys x.bytes :=
    fun hplaced hearly => not_visits_of_endsEarly h hearly hplaced _ _ _
      (hlaw.left (fun (_ : Unit) (_ : Entry) => (false, ())) ())
  refine ⟨fun hlt => ViewObject.scanDirection_eq_some_iff.mp (hlaw.directed hlt).1, hsought,
    fun heq fwd hplaced => ?_⟩
  obtain ⟨offered, hvisits, -, hnil⟩ :=
    scanRangeView_offers h hfree fwd x.bytes x.bytes (hsought hplaced)
  refine (hnil rfl).mp ?_
  have hall := hvisits rfl heq.symm hplaced (fun (_ : Unit) (_ : Entry) => (false, ())) ()
  have hnone := hlaw.left (fun (_ : Unit) (_ : Entry) => (false, ())) ()
  rw [hlaw.nothing heq] at hnone
  have hsame : Except.ok (visited _ () offered) = Except.ok (visited _ () []) := hall.symm.trans hnone
  rw [visited_never] at hsame
  exact Except.ok.inj hsame

/-- Nothing is visited of a regular range with equal ends. -/
theorem RangeRegular.visits_nothing (hregular : RangeRegular s.tree.Keys x y) (heq : x.bytes = y.bytes)
    {σ : Type} (fn : Visitor σ) (state : σ) : s.Visits fn state x y [] := by
  by_cases hsome : ∃ fwd, x.PlacedToward fwd y
  · obtain ⟨fwd, hplaced⟩ := hsome
    obtain ⟨offered, hvisits, -, hnil⟩ :=
      scanRangeView_offers h hfree fwd x.bytes x.bytes (hregular.sought hplaced)
    have hrun := hvisits rfl heq.symm hplaced fn state
    rwa [(hnil rfl).mpr (hregular.settled heq hplaced)] at hrun
  · exact Unodb.visits_nothing (not_exists.mp hsome) fn state

/-- Two calls with the same bytes keep the law exactly when both ranges are regular. -/
theorem rangeLaw_iff (hx : x'.bytes = x.bytes) (hy : y'.bytes = y.bytes) :
    (∃ entries, RangeLaw (fun fn state => s.Visits fn state) x y x' y' entries) ↔
      RangeRegular s.tree.Keys x y ∧ RangeRegular s.tree.Keys x' y' := by
  constructor
  · rintro ⟨entries, hlaw⟩
    have hflip : RangeLaw (fun fn state => s.Visits fn state) x' y' x y entries := by
      refine ⟨hlaw.right, hlaw.left, fun heq => hlaw.nothing (hx ▸ hy ▸ heq), fun hlt => ?_⟩
      rw [hx, hy] at hlt
      obtain ⟨hdir, hdir', hsorted⟩ := hlaw.directed hlt
      exact ⟨hdir', hdir, hsorted⟩
    exact ⟨hlaw.regular h hfree, hflip.regular h hfree⟩
  · rintro ⟨hregular, hregular'⟩
    by_cases heq : x.bytes = y.bytes
    · refine ⟨[], fun fn state => hregular.visits_nothing h hfree heq fn state,
        fun fn state => hregular'.visits_nothing h hfree (hx.trans (heq.trans hy.symm)) fn state,
        fun _ => rfl, fun {fwd} hlt => ?_⟩
      rw [heq] at hlt
      exact absurd hlt (Toward.irrefl _)
    · obtain ⟨fwd, hlt⟩ : ∃ fwd, Toward fwd x.bytes y.bytes :=
        (Toward.total true heq).elim (fun hlt => ⟨true, hlt⟩) fun hlt => ⟨false, hlt⟩
      have hplaced := hregular.placed hlt
      have hplaced' : x'.PlacedToward fwd y' := hregular'.placed (by rw [hx, hy]; exact hlt)
      obtain ⟨entries, hvisits, hsorted, -⟩ :=
        scanRangeView_offers h hfree fwd x.bytes y.bytes (hregular.sought hplaced)
      refine ⟨entries, hvisits rfl rfl hplaced, hvisits hx hy hplaced', fun heq' => absurd heq' heq,
        fun {fwd'} hlt' => ?_⟩
      -- The bytes are in order in one direction only.
      have hfwd : fwd' = fwd := by
        by_contra hne
        rw [Bool.eq_not_of_ne hne] at hlt'
        exact hlt'.flip.asymm (by rwa [Bool.not_not])
      rw [hfwd]
      exact ⟨ViewObject.scanDirection_eq_some_iff.mpr hplaced,
        ViewObject.scanDirection_eq_some_iff.mpr hplaced', hsorted⟩

end Law

end Unodb
