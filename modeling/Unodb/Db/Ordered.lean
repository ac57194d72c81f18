import Unodb.Db.Position
import Unodb.Db.Run
import Unodb.Util.Cursor
import Unodb.Util.Endian
import Mathlib.Data.Finset.Sort
import Mathlib.Data.Set.Finite.Lattice

/-!
# Ordered iteration

On a `db` with 64-bit keys an iterator is a cursor on the stored keys in their numeric order.
-/

namespace Unodb

namespace Db

/-! ## 1. The order of 64-bit keys -/

theorem wordByte_eq_digit (w : BitVec 64) (i : Nat) :
    Words.wordByte w i = UInt8.ofNat (w.toNat / 256 ^ i % 256) := by
  apply UInt8.toNat_inj.mp
  rw [Endian.toNat_lowByte, Words.wordByte, UInt8.toNat_ofBitVec, BitVec.extractLsb'_toNat,
    Nat.shiftRight_eq_div_pow, pow_mul]
  rfl

theorem leBytes_eq_map (n v : Nat) :
    Endian.leBytes n v = (List.range n).map fun i => UInt8.ofNat (v / 256 ^ i % 256) := by
  induction n generalizing v with
  | zero => rfl
  | succ n ih =>
    rw [Endian.leBytes, ih, List.range_succ_eq_map, List.map_cons, List.map_map, pow_zero,
      Nat.div_one]
    congr 2
    funext i
    rw [Function.comp_apply, Nat.div_div_eq_div_mul, pow_succ, Nat.mul_comm]

/-- The bytes of an encoded key are the big-endian bytes of the key. -/
theorem view_u64 (k : BitVec 64) : view U64Key.make k = Endian.beBytes 8 k.toNat := by
  have hrange : List.range 8 = [0, 1, 2, 3, 4, 5, 6, 7] := rfl
  rw [Endian.beBytes, leBytes_eq_map]
  show (List.range 8).map (Words.wordByte (bswap k)) = _
  have hbyte : ∀ {i}, i < 8 → Words.wordByte (bswap k) i = Words.wordByte k (7 - i) :=
    fun hi => wordByte_bswap k hi
  simp only [hrange, List.map_cons, List.map_nil, List.reverse_cons, List.reverse_nil,
    List.nil_append, List.cons_append, ← wordByte_eq_digit]
  rw [hbyte (by decide : 0 < 8), hbyte (by decide : 1 < 8), hbyte (by decide : 2 < 8),
    hbyte (by decide : 3 < 8), hbyte (by decide : 4 < 8), hbyte (by decide : 5 < 8),
    hbyte (by decide : 6 < 8), hbyte (by decide : 7 < 8)]

/-- The key strings of `db<std::uint64_t>` are those of its keys. -/
theorem exists_view_u64 {x : List UInt8} (hx : x ∈ u64Views) : ∃ k, view U64Key.make k = x := by
  have hlen : x.reverse.length = 8 := x.length_reverse.trans hx
  have hlt : Endian.ofLeBytes x.reverse < 2 ^ 64 := by
    have hbytes := Endian.ofLeBytes_lt x.reverse
    rw [hlen] at hbytes
    exact hbytes
  refine ⟨BitVec.ofNat 64 (Endian.ofLeBytes x.reverse), ?_⟩
  rw [view_u64, BitVec.toNat_ofNat, Nat.mod_eq_of_lt hlt, Endian.beBytes, ← hlen,
    Endian.leBytes_ofLeBytes, List.reverse_reverse]

/-- A `db` with keys of eight bytes stores a map from 64-bit integers. -/
theorem Inv.represents_u64 {path : NodePtr → List UInt8} {lost : NodeType → Nat} {s : Db sizes}
    (h : s.Inv u64Views path lost) : ∃ m, Represents U64Key.make s m := by
  classical
  refine ⟨fun k => if hk : ∃ v, s.tree.Binds (view U64Key.make k) v then some hk.choose else none,
    fun k v => ?_, fun {x v} hx => ?_⟩
  · constructor
    · intro hv
      have hk : ∃ v, s.tree.Binds (view U64Key.make k) v := ⟨v, hv⟩
      simp only [dif_pos hk, h.tree.binds_unique hk.choose_spec hv]
    · intro hv
      split at hv
      case isTrue hk => exact Option.some_inj.mp hv ▸ hk.choose_spec
      case isFalse => cases hv
  · obtain ⟨p, hp⟩ := Tree.binds_iff.mpr hx
    exact exists_view_u64 (h.tree.graph.key_mem hp)

/-- Encoded keys are ordered as the keys are. -/
theorem view_u64_precedes_iff {fwd : Bool} (a b : BitVec 64) :
    Precedes (Toward fwd) (view U64Key.make a) (view U64Key.make b) ↔ Toward fwd a b := by
  have hup : ∀ a b : BitVec 64, Precedes (Toward true) (view U64Key.make a) (view U64Key.make b) ↔
      a < b := by
    intro a b
    rw [view_u64, view_u64, BitVec.lt_def]
    exact Endian.beBytes_precedes_iff a.isLt b.isLt
  cases fwd with
  | true => exact hup a b
  | false => exact ⟨fun h => (hup b a).mp h.flip, fun h => ((hup b a).mpr h).flip⟩

end Db

/-! ## 2. Stacks are determined by the entry -/

theorem OnPath.unique {K : Set (List UInt8)} {path : NodePtr → List UInt8} {t : Tree}
    (h : t.Inv K path) {stack stack' : List StackEntry} {slot : Radix.Slot NodePtr UInt8}
    (hpath : OnPath t stack slot) (hpath' : OnPath t stack' slot) : stack = stack' := by
  induction hpath generalizing stack' with
  | root =>
    cases hpath'
    rfl
  | @child stack slot p n e hpath hread hp hres ih =>
    generalize hslot : Radix.Slot.child p e.keyByte = target at hpath'
    cases hpath' with
    | root => cases hslot
    | @child stack' slot' p' n' e' hpath' hread' hp' hres' =>
      obtain ⟨rfl, hkey⟩ := Radix.Slot.child.inj hslot
      obtain rfl := h.graph.slot_unique hread hread'
      rw [hp] at hp'
      cases hp'
      obtain ⟨i, hi⟩ := hres.find
      obtain ⟨i', hi'⟩ := hres'.find
      rw [← hkey, hi] at hi'
      rw [ih hpath', hres.keyPrefix_eq, hres'.keyPrefix_eq, hkey]
      congr 2
      exact (congrArg (·.1) (Option.some_inj.mp hi'))

namespace Iterator

/-- At one key there is one stack. -/
theorem On.stack_eq {K : Set (List UInt8)} {path : NodePtr → List UInt8} {t : Tree}
    (h : t.Inv K path) {it it' : Iterator} {k v v' : List UInt8} (hon : it.On t k v)
    (hon' : it'.On t k v') : it.stack = it'.stack := by
  obtain ⟨stack, slot, p, hstack, hpath, hread, hp⟩ := hon.at_leaf
  obtain ⟨stack', slot', p', hstack', hpath', hread', hp'⟩ := hon'.at_leaf
  have hleaf : p = p' := h.graph.leaf_unique (Tree.graph_node_leaf_iff.mpr hp)
    (Tree.graph_node_leaf_iff.mpr hp')
  subst hleaf
  obtain rfl := h.graph.slot_unique hread hread'
  rw [hstack, hstack', OnPath.unique h hpath hpath']

/-! ## 3. Moves -/

/-- A call that moves an iterator. -/
inductive Move where
  | first
  | last
  | next
  | prior
deriving DecidableEq, Repr

def move (s : Db sizes) : Move → Iterator → Except Fault Iterator
  | .first, _ => first s
  | .last, _ => last s
  | .next, it => next s it
  | .prior, it => prior s it

/-- A sequence of moves. -/
def moves (s : Db sizes) : List Move → Iterator → Except Fault Iterator
  | [], it => .ok it
  | c :: cs, it => do moves s cs (← move s c it)

theorem moves_append {s : Db sizes} {cs cs' : List Move} {it it' : Iterator}
    (h : moves s cs it = .ok it') : moves s (cs ++ cs') it = moves s cs' it' := by
  induction cs generalizing it with
  | nil =>
    cases h
    rfl
  | cons c cs ih =>
    rw [List.cons_append, moves]
    rw [moves] at h
    cases hmove : move s c it with
    | error fault => rw [hmove] at h; nomatch h
    | ok it₁ =>
      rw [hmove] at h
      exact ih h

/-- The keys of a map. -/
def stored (m : RefMap (BitVec 64)) : Set (BitVec 64) := {k | (m k).isSome}

/-- What a move does to a cursor on the stored keys. -/
def MovesTo (m : RefMap (BitVec 64)) : Move → Option (BitVec 64) → Option (BitVec 64) → Prop
  | .first, _, c => Radix.Foremost (Toward true) (stored m) c
  | .last, _, c => Radix.Foremost (Toward false) (stored m) c
  | .next, c, c' => Radix.Follows (Toward true) (stored m) c c'
  | .prior, c, c' => Radix.Follows (Toward false) (stored m) c c'

/-- The iterator is the cursor. -/
def Stands (s : Db sizes) (it : Iterator) : Option (BitVec 64) → Prop
  | none => it.stack = []
  | some k => ∃ v, it.On s.tree (Db.view U64Key.make k) v

/-- What the calls of an iterator show of a cursor: whether it is valid, and the entry it is at. -/
def Shows (s : Db sizes) (m : RefMap (BitVec 64)) (it : Iterator) : Option (BitVec 64) → Prop
  | none => it.valid = false
  | some k => it.valid = true ∧ ∃ v, m k = some v ∧ it.entry s.tree = .ok (Db.view U64Key.make k, v)

/-! ## 4. A move of an iterator is a move of the cursor -/

theorem toward_asymm {fwd : Bool} {a b : BitVec 64} (h : Toward fwd a b) : ¬ Toward fwd b a := by
  cases fwd with
  | true => exact fun h' => BitVec.lt_asymm h h'
  | false => exact fun h' => BitVec.lt_asymm h h'

theorem toward_total {fwd : Bool} (a b : BitVec 64) : a = b ∨ Toward fwd a b ∨ Toward fwd b a := by
  rcases BitVec.lt_trichotomy a b with hlt | heq | hgt
  · cases fwd with
    | true => exact .inr (.inl hlt)
    | false => exact .inr (.inr hlt)
  · exact .inl heq
  · cases fwd with
    | true => exact .inr (.inr hgt)
    | false => exact .inr (.inl hgt)

section Cursor

variable {K : Set (List UInt8)} {path : NodePtr → List UInt8} {lost : NodeType → Nat} {s : Db sizes}
  {m : RefMap (BitVec 64)} {it : Iterator} {c : Option (BitVec 64)}
  (h : s.Inv K path lost) (hrep : Db.Represents U64Key.make s m)
include h hrep

omit h in
theorem mem_stored_of_on {k : BitVec 64} {v : List UInt8}
    (hon : it.On s.tree (Db.view U64Key.make k) v) : k ∈ stored m := by
  show (m k).isSome
  rw [(hrep.binds_iff k v).mp (Tree.binds_iff.mp hon.binds)]
  rfl

omit h in
/-- The key of a binding of the tree, with what the order of the bytes says about it. -/
theorem exists_key {x v : List UInt8} (hx : s.tree.graph.Binds x v) :
    ∃ k ∈ stored m, Db.view U64Key.make k = x := by
  have hbinds := Tree.binds_iff.mp hx
  obtain ⟨k, rfl⟩ := hrep.onto hbinds
  refine ⟨k, ?_, rfl⟩
  show (m k).isSome
  rw [(hrep.binds_iff k v).mp hbinds]
  rfl

omit h in
theorem binds_of_stored {k : BitVec 64} (hk : k ∈ stored m) :
    ∃ v, s.tree.graph.Binds (Db.view U64Key.make k) v := by
  obtain ⟨v, hv⟩ := Option.isSome_iff_exists.mp hk
  exact ⟨v, Tree.binds_iff.mpr ((hrep.binds_iff k v).mpr hv)⟩

omit h in
theorem Stands.shows (hit : it.Stands s c) : it.Shows s m c := by
  cases c with
  | none =>
    have hstack : it.stack = [] := hit
    show (!it.stack.isEmpty) = false
    rw [hstack]
    rfl
  | some k =>
    obtain ⟨v, hon⟩ := hit
    obtain ⟨stack, slot, p, hstack, -, -, hp⟩ := hon.at_leaf
    have htype : (leafEntry p).node.type = .leaf := (Tree.deref_eq_some_iff.mp hp).2.symm
    refine ⟨by rw [valid, hstack]; rfl, v,
      (hrep.binds_iff k v).mp (Tree.binds_iff.mp hon.binds), ?_⟩
    rw [entry, hstack]
    show (assertThat ((leafEntry p).node.type = .leaf) >>= _) = _
    rw [assertThat_pos htype]
    exact Tree.readLeaf_ok hp

omit h in
theorem Reaches.stands {fwd : Bool} {k : BitVec 64}
    (hreach : Reaches s.tree fwd (Db.view U64Key.make k) it) :
    ∃ c, it.Stands s c ∧ Radix.Follows (Toward fwd) (stored m) (some k) c := by
  rcases hreach with ⟨hend, hnone⟩ | ⟨x, v, hon, hnext⟩
  · refine ⟨none, hend, ?_⟩
    show {b | b ∈ stored m ∧ Toward fwd k b} = ∅
    refine Set.eq_empty_iff_forall_notMem.mpr ?_
    rintro b ⟨hb, hkb⟩
    obtain ⟨v, hv⟩ := binds_of_stored hrep hb
    exact hnone hv ((Db.view_u64_precedes_iff k b).mpr hkb)
  · obtain ⟨b, hb, rfl⟩ := exists_key hrep hon.binds
    refine ⟨some b, ⟨v, hon⟩, ⟨hb, (Db.view_u64_precedes_iff k b).mp hnext.after⟩, ?_⟩
    rintro b' ⟨hb', hkb'⟩
    obtain ⟨v', hv'⟩ := binds_of_stored hrep hb'
    rcases hnext.first hv' ((Db.view_u64_precedes_iff k b').mpr hkb') with heq | hlt
    · exact .inl (Db.view_u64_injective heq)
    · exact .inr ((Db.view_u64_precedes_iff b b').mp hlt)

/-- `next` and `prior`. -/
theorem Stands.advance (fwd : Bool) (hit : it.Stands s c) :
    ∃ it' c', Iterator.advance s fwd it.stack it.keybuf = .ok it' ∧ it'.Stands s c' ∧
      Radix.Follows (Toward fwd) (stored m) c c' := by
  cases c with
  | none =>
    have hstack : it.stack = [] := hit
    rw [hstack]
    exact ⟨_, none, rfl, rfl, rfl⟩
  | some k =>
    obtain ⟨v, hon⟩ := hit
    obtain ⟨it', hrun, hreach⟩ := hon.advance_spec h.tree fwd h.heightLE
    obtain ⟨c', hstands, hfollows⟩ := Reaches.stands hrep hreach
    exact ⟨it', c', hrun, hstands, hfollows⟩

/-- `first` and `last`. -/
theorem outermost_stands (fwd : Bool) :
    ∃ it' c', (match s.tree.root with
        | none => .ok .invalid
        | some root => traversal s.tree fwd s.next root .invalid) = Except.ok (ε := Fault) it' ∧
      it'.Stands s c' ∧ Radix.Foremost (Toward fwd) (stored m) c' := by
  cases hroot : s.tree.root with
  | none =>
    refine ⟨_, none, rfl, rfl, ?_⟩
    show stored m = ∅
    refine Set.eq_empty_iff_forall_notMem.mpr fun k hk => ?_
    obtain ⟨v, x, hx⟩ := binds_of_stored hrep hk
    rw [h.tree.graph.node_eq_none hroot] at hx
    cases hx
  | some root =>
    obtain ⟨it', x, v, hrun, hon, hfirst⟩ := outermost_spec h.tree fwd h.heightLE root hroot
    obtain ⟨k, hk, rfl⟩ := exists_key hrep hon.binds
    refine ⟨it', some k, hrun, ⟨v, hon⟩, hk, fun b hb => ?_⟩
    obtain ⟨v', hv'⟩ := binds_of_stored hrep hb
    rcases hfirst.first hv' List.nil_prefix with heq | hlt
    · exact .inl (Db.view_u64_injective heq)
    · exact .inr ((Db.view_u64_precedes_iff k b).mp hlt)

theorem Stands.move (mv : Move) (hit : it.Stands s c) :
    ∃ it' c', Iterator.move s mv it = .ok it' ∧ it'.Stands s c' ∧ MovesTo m mv c c' := by
  cases mv with
  | first => exact outermost_stands h hrep true
  | last => exact outermost_stands h hrep false
  | next => exact hit.advance h hrep true
  | prior => exact hit.advance h hrep false

theorem Stands.moves (mvs : List Move) (hit : it.Stands s c) :
    ∃ it' c', Iterator.moves s mvs it = .ok it' ∧ it'.Stands s c' := by
  induction mvs generalizing it c with
  | nil => exact ⟨it, c, rfl, hit⟩
  | cons mv mvs ih =>
    obtain ⟨it₁, c₁, hmove, hit₁, -⟩ := hit.move h hrep mv
    obtain ⟨it', c', hrun, hit'⟩ := ih hit₁
    refine ⟨it', c', ?_, hit'⟩
    rw [Iterator.moves, hmove]
    exact hrun

omit hrep in
omit h in
/-- An iterator is one cursor only. -/
theorem Stands.unique {c' : Option (BitVec 64)} (hit : it.Stands s c) (hit' : it.Stands s c') :
    c = c' := by
  cases c with
  | none =>
    cases c' with
    | none => rfl
    | some k' =>
      obtain ⟨v', hon'⟩ := hit'
      exact absurd hit hon'.ne_nil
  | some k =>
    obtain ⟨v, hon⟩ := hit
    cases c' with
    | none => exact absurd hit' hon.ne_nil
    | some k' =>
      obtain ⟨v', hon'⟩ := hit'
      rw [Db.view_u64_injective (hon.unique hon').1]

omit h in
omit hrep in
theorem Stands.valid_iff (hit : it.Stands s c) : it.valid ↔ c.isSome := by
  cases c with
  | none =>
    have hstack : it.stack = [] := hit
    rw [valid, hstack]
    simp
  | some k =>
    obtain ⟨v, hon⟩ := hit
    obtain ⟨stack, slot, p, hstack, -⟩ := hon.at_leaf
    rw [valid, hstack]
    simp

/-- A move that is taken back leads to the stack it started from. -/
theorem Stands.back {fwd : Bool} {it' : Iterator} (hit : it.Stands s c) (hvalid : it.valid)
    (hrun : Iterator.advance s fwd it.stack it.keybuf = .ok it') (hvalid' : it'.valid) :
    ∃ it'', Iterator.advance s (!fwd) it'.stack it'.keybuf = .ok it'' ∧
      it''.stack = it.stack := by
  obtain ⟨k, rfl⟩ := Option.isSome_iff_exists.mp ((hit.valid_iff).mp hvalid)
  obtain ⟨it₁, c', hrun₁, hit', hfollows⟩ := hit.advance h hrep fwd
  cases hrun.symm.trans hrun₁
  obtain ⟨k', rfl⟩ := Option.isSome_iff_exists.mp ((hit'.valid_iff).mp hvalid')
  obtain ⟨it'', c'', hrun'', hit'', hfollows''⟩ := hit'.advance h hrep (!fwd)
  refine ⟨it'', hrun'', ?_⟩
  obtain ⟨v, hon⟩ := hit
  have hback : Radix.Follows (Toward !fwd) (stored m) (some k') (some k) := by
    have hflip := hfollows.back toward_asymm toward_total (mem_stored_of_on hrep hon)
    cases fwd <;> exact hflip
  obtain rfl := hfollows''.unique toward_asymm hback
  obtain ⟨v'', hon''⟩ := hit''
  exact hon''.stack_eq h.tree hon

/-- The iterator after `n` steps from the first entry of a direction is at entry `n` of the
    sorted keys. -/
theorem sweep (fwd : Bool) (start step : Move) {keys : List (BitVec 64)}
    (hstart : ∀ c c', MovesTo m start c c' → Radix.Foremost (Toward fwd) (stored m) c')
    (hstep : ∀ c c', MovesTo m step c c' → Radix.Follows (Toward fwd) (stored m) c c')
    (hsorted : keys.Pairwise (Toward fwd)) (hmem : ∀ k, k ∈ keys ↔ k ∈ stored m) (n : Nat) :
    ∃ it, Iterator.moves s (start :: List.replicate n step) .invalid = .ok it ∧
      it.Stands s keys[n]? := by
  induction n with
  | zero =>
    obtain ⟨it, c, hrun, hit, hc⟩ := Stands.move h hrep start
      (show Iterator.invalid.Stands s none from rfl)
    have hc' : c = keys[0]? := (hstart _ _ hc).unique toward_asymm
      (Radix.foremost_head? hsorted hmem)
    refine ⟨it, ?_, hc' ▸ hit⟩
    rw [List.replicate_zero, Iterator.moves, hrun]
    rfl
  | succ n ih =>
    obtain ⟨it, hrun, hit⟩ := ih
    obtain ⟨it', c', hmove, hit', hc'⟩ := hit.move h hrep step
    have hc : c' = keys[n + 1]? := (hstep _ _ hc').unique toward_asymm
      (Radix.follows_getElem? hsorted hmem toward_asymm n)
    refine ⟨it', ?_, hc ▸ hit'⟩
    rw [List.replicate_succ', ← List.cons_append, moves_append hrun, Iterator.moves, hmove]
    rfl

end Cursor

/-! ## 5. Ordered iteration -/

theorem exists_sorted {T : Set (BitVec 64)} (hfin : T.Finite) :
    ∃ keys : List (BitVec 64), keys.Pairwise (· < ·) ∧ ∀ k, k ∈ keys ↔ k ∈ T := by
  let F : Finset Nat := hfin.toFinset.image BitVec.toNat
  have hF : ∀ {n}, n ∈ F.sort (· ≤ ·) ↔ ∃ k ∈ T, k.toNat = n := by
    intro n
    rw [Finset.mem_sort, Finset.mem_image]
    simp only [Set.Finite.mem_toFinset]
  refine ⟨(F.sort (· ≤ ·)).map (BitVec.ofNat 64), ?_, fun k => ?_⟩
  · rw [List.pairwise_map]
    refine F.sortedLT_sort.pairwise.imp_of_mem ?_
    intro a b ha hb hab
    obtain ⟨k, -, rfl⟩ := hF.mp ha
    obtain ⟨k', -, rfl⟩ := hF.mp hb
    rw [BitVec.ofNat_toNat, BitVec.ofNat_toNat, BitVec.setWidth_eq, BitVec.setWidth_eq]
    exact BitVec.lt_def.mpr hab
  · rw [List.mem_map]
    constructor
    · rintro ⟨n, hn, rfl⟩
      obtain ⟨k, hk, rfl⟩ := hF.mp hn
      rw [BitVec.ofNat_toNat, BitVec.setWidth_eq]
      exact hk
    · intro hk
      refine ⟨k.toNat, hF.mpr ⟨k, hk, rfl⟩, ?_⟩
      rw [BitVec.ofNat_toNat, BitVec.setWidth_eq]

/-- An iterator over the bindings of a map in the order of the keys. -/
structure Iterates (s : Db sizes) (m : RefMap (BitVec 64)) : Prop where
  /-- `first` and then `next` again and again, `last` and then `prior` again and again. -/
  sweeps : ∃ keys : List (BitVec 64), keys.Pairwise (· < ·) ∧ (∀ k, k ∈ keys ↔ k ∈ stored m) ∧
    (∀ n, ∃ it, moves s (.first :: List.replicate n .next) .invalid = .ok it ∧
      it.Shows s m keys[n]?) ∧
    ∀ n, ∃ it, moves s (.last :: List.replicate n .prior) .invalid = .ok it ∧
      it.Shows s m keys.reverse[n]?
  /-- Where any moves lead, `next` leads on to the successor and `prior` to the predecessor. -/
  neighbours : ∀ mvs, ∃ it c, moves s mvs .invalid = .ok it ∧ it.Shows s m c ∧
    (∃ it' c', next s it = .ok it' ∧ it'.Shows s m c' ∧
      Radix.Follows (Toward true) (stored m) c c') ∧
    ∃ it' c', prior s it = .ok it' ∧ it'.Shows s m c' ∧
      Radix.Follows (Toward false) (stored m) c c'
  /-- `prior` takes a `next` back, and `next` a `prior`. -/
  undone : ∀ mvs it it', moves s mvs .invalid = .ok it → it.valid → it'.valid →
    (next s it = .ok it' → ∃ it'', prior s it' = .ok it'' ∧ it''.stack = it.stack) ∧
    (prior s it = .ok it' → ∃ it'', next s it' = .ok it'' ∧ it''.stack = it.stack)

theorem Iterates.of_represents {K : Set (List UInt8)} {path : NodePtr → List UInt8}
    {lost : NodeType → Nat} {s : Db sizes} {m : RefMap (BitVec 64)} (h : s.Inv K path lost)
    (hrep : Db.Represents U64Key.make s m) (hfin : (stored m).Finite) : Iterates s m := by
  have hinvalid : Iterator.invalid.Stands s none := rfl
  constructor
  · obtain ⟨keys, hsorted, hmem⟩ := exists_sorted hfin
    refine ⟨keys, hsorted, hmem, fun n => ?_, fun n => ?_⟩
    · obtain ⟨it, hrun, hit⟩ := sweep h hrep true .first .next (fun _ _ => id)
        (fun _ _ => id) hsorted hmem n
      exact ⟨it, hrun, hit.shows hrep⟩
    · obtain ⟨it, hrun, hit⟩ := sweep h hrep false .last .prior (fun _ _ => id)
        (fun _ _ => id) (List.pairwise_reverse.mpr hsorted)
        (fun k => by rw [List.mem_reverse, hmem]) n
      exact ⟨it, hrun, hit.shows hrep⟩
  · intro mvs
    obtain ⟨it, c, hrun, hit⟩ := hinvalid.moves h hrep mvs
    obtain ⟨it₁, c₁, hnext, hit₁, hc₁⟩ := hit.advance h hrep true
    obtain ⟨it₂, c₂, hprior, hit₂, hc₂⟩ := hit.advance h hrep false
    exact ⟨it, c, hrun, hit.shows hrep, ⟨it₁, c₁, hnext, hit₁.shows hrep, hc₁⟩,
      it₂, c₂, hprior, hit₂.shows hrep, hc₂⟩
  · intro mvs it it' hrun hvalid hvalid'
    obtain ⟨it₁, c, hrun₁, hit⟩ := hinvalid.moves h hrep mvs
    cases hrun.symm.trans hrun₁
    exact ⟨fun hnext => hit.back h hrep hvalid hnext hvalid',
      fun hprior => hit.back h hrep hvalid hprior hvalid'⟩

end Iterator

namespace Db

/-- Calls store finitely many keys. -/
theorem finite_stored (refusal : BitVec 64 → List UInt8 → Option String)
    (calls : List (Call (BitVec 64))) {m : RefMap (BitVec 64)} (hm : (Iterator.stored m).Finite) :
    (Iterator.stored (RefMap.run refusal calls m).2).Finite := by
  induction calls generalizing m with
  | nil => exact hm
  | cons c cs ih =>
    refine ih (Set.Finite.subset (hm.union (Set.finite_singleton (match c with
      | .insert k _ => k
      | _ => 0))) fun k hk => ?_)
    rcases RefMap.isSome_of_step hk with hk | ⟨v, rfl⟩
    · exact .inl hk
    · exact .inr rfl

/-- Iteration over a `db<std::uint64_t>` is iteration over a map in the order of its keys. -/
theorem run_u64_iterates (calls : List (Call (BitVec 64))) :
    Iterator.Iterates (run U64Key.make calls (Db.empty sizes)).2
      (RefMap.run (fun _ v => valueRefusal v) calls fun _ => none).2 := by
  obtain ⟨-, ⟨path, lost, hinv⟩, hrep⟩ := run_u64_spec calls
  refine Iterator.Iterates.of_represents hinv hrep (finite_stored _ calls ?_)
  exact Set.Finite.subset Set.finite_empty fun k hk => by cases hk

end Db

end Unodb
