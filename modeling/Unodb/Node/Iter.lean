import Unodb.Node.Rep
import Mathlib.Order.Interval.Set.Basic

/-!
# Iteration over the children of a node

The steps of an iterator on one inner node, in key order.  Each is specified by the set of bytes it
looks in: it finds the least (or the greatest) byte of the set that has a child, with the child
index of that byte, or nothing if no byte of the set has a child.
-/

open Arrays

namespace Unodb

namespace INode

variable {P : Type}

def iterResult (n : INode P) (keyByte : UInt8) (childIndex : Nat) : IterResult :=
  { keyByte, childIndex, keyPrefix := n.keyPrefix }

/-- The result for an index into the sorted keys of a `basic_inode_4` or `basic_inode_16`. -/
def iterResultAt (n : INode P) (keys : List UInt8) (childIndex : Nat) : Except Fault IterResult :=
  match keys[childIndex]? with
  | some key => .ok (n.iterResult key childIndex)
  | none => .error .badAccess

/-- The result for a byte found in the table of a `basic_inode_48` or `basic_inode_256`. -/
def iterResultByte (n : INode P) (found : Option UInt8) : Option IterResult :=
  found.map fun b => n.iterResult b b.toNat

/-- `begin`. -/
def begin (n : INode P) : Except Fault IterResult :=
  match n.layout with
  -- The keys are sorted, so that the first child is the outermost.
  | .i4 keys _ | .i16 keys _ => n.iterResultAt keys 0
  | .i48 childIndexes _ =>
    (n.iterResultByte (allBytes.find? fun i => childIndexes i ≠ emptyChild)).elim
      (.error .cannotHappen) .ok
  | .i256 children =>
    (n.iterResultByte (allBytes.find? fun i => (children i).isSome)).elim (.error .cannotHappen) .ok

/-- `last`. -/
def last (n : INode P) : Except Fault IterResult :=
  match n.layout with
  -- The last index, computed in eight bits.
  | .i4 keys _ | .i16 keys _ => n.iterResultAt keys ((n.childrenCount + 255) % 256)
  | .i48 childIndexes _ =>
    (n.iterResultByte (allBytes.reverse.find? fun i => childIndexes i ≠ emptyChild)).elim
      (.error .cannotHappen) .ok
  | .i256 children =>
    (n.iterResultByte (allBytes.reverse.find? fun i => (children i).isSome)).elim
      (.error .cannotHappen) .ok

/-- `next`. -/
def next (n : INode P) (childIndex : Nat) : Except Fault (Option IterResult) :=
  match n.layout with
  | .i4 keys _ | .i16 keys _ =>
    -- The index is eight bits wide, and is compared with the count after it wraps round.
    let nextIndex := (childIndex + 1) % 256
    if n.childrenCount ≤ nextIndex then .ok none else (n.iterResultAt keys nextIndex).map some
  -- The index of a table is the key byte itself.
  | .i48 childIndexes _ =>
    .ok (n.iterResultByte
      ((allBytes.drop (childIndex + 1)).find? fun i => childIndexes i ≠ emptyChild))
  | .i256 children =>
    .ok (n.iterResultByte ((allBytes.drop (childIndex + 1)).find? fun i => (children i).isSome))

/-- `prior`. -/
def prior (n : INode P) (childIndex : Nat) : Except Fault (Option IterResult) :=
  match n.layout with
  | .i4 keys _ | .i16 keys _ =>
    if childIndex = 0 then .ok none else (n.iterResultAt keys (childIndex - 1)).map some
  | .i48 childIndexes _ =>
    .ok (n.iterResultByte
      ((allBytes.take childIndex).reverse.find? fun i => childIndexes i ≠ emptyChild))
  | .i256 children =>
    .ok (n.iterResultByte ((allBytes.take childIndex).reverse.find? fun i => (children i).isSome))

/-- `gte_key_byte`. -/
def gteKeyByte (n : INode P) (keyByte : UInt8) : Option IterResult :=
  match n.layout with
  | .i4 keys _ | .i16 keys _ =>
    -- The first key in the sorted order that is not below the byte.
    ((keys.take n.childrenCount).zipIdx.find? fun key => keyByte ≤ key.1).map fun key =>
      n.iterResult key.1 key.2
  | .i48 childIndexes _ =>
    n.iterResultByte ((allBytes.drop keyByte.toNat).find? fun i => childIndexes i ≠ emptyChild)
  | .i256 children =>
    n.iterResultByte ((allBytes.drop keyByte.toNat).find? fun i => (children i).isSome)

/-- `lte_key_byte`. -/
def lteKeyByte (n : INode P) (keyByte : UInt8) : Option IterResult :=
  match n.layout with
  | .i4 keys _ | .i16 keys _ =>
    ((keys.take n.childrenCount).zipIdx.reverse.find? fun key => key.1 ≤ keyByte).map fun key =>
      n.iterResult key.1 key.2
  | .i48 childIndexes _ =>
    n.iterResultByte
      ((allBytes.take (keyByte.toNat + 1)).reverse.find? fun i => childIndexes i ≠ emptyChild)
  | .i256 children =>
    n.iterResultByte
      ((allBytes.take (keyByte.toNat + 1)).reverse.find? fun i => (children i).isSome)

/-! ## 1. What a step finds -/

/-- The bytes of a set that have a child. -/
def boundIn (n : INode P) (s : Set UInt8) : Set UInt8 := {b | b ∈ s ∧ (n.child b).isSome}

/-- An iteration result is that of a byte that has a child. -/
structure IsResult (n : INode P) (e : IterResult) : Prop where
  find : ∃ i, n.findChild e.keyByte = some (e.childIndex, i)
  keyPrefix_eq : e.keyPrefix = n.keyPrefix

/-- The least byte of the set that has a child, if there is one. -/
def FindsLeast (n : INode P) (s : Set UInt8) : Option IterResult → Prop
  | none => n.boundIn s = ∅
  | some e => n.IsResult e ∧ IsLeast (n.boundIn s) e.keyByte

/-- The greatest byte of the set that has a child, if there is one. -/
def FindsGreatest (n : INode P) (s : Set UInt8) : Option IterResult → Prop
  | none => n.boundIn s = ∅
  | some e => n.IsResult e ∧ IsGreatest (n.boundIn s) e.keyByte

section Find

/-- What a search through a list passes over does not satisfy its condition. -/
theorem find?_first {α : Type} {r : α → α → Prop} {l : List α} {p : α → Bool} {a x : α}
    (hl : l.Pairwise r) (h : l.find? p = some a) (hx : x ∈ l) (hpx : p x) : x = a ∨ r a x := by
  obtain ⟨-, as, bs, hl', hnot⟩ := List.find?_eq_some_iff_append.mp h
  subst hl'
  rcases List.mem_append.mp hx with hxa | hxb
  · exact absurd hpx (by simpa using hnot x hxa)
  · rcases List.mem_cons.mp hxb with heq | hxb
    · exact .inl heq
    · exact .inr ((List.pairwise_cons.mp (List.pairwise_append.mp hl).2.1).1 x hxb)

variable {α : Type} [LinearOrder α] {l : List α} {p : α → Bool} {a : α}

theorem find?_isLeast (hl : l.Pairwise (· < ·)) (h : l.find? p = some a) :
    IsLeast {x | x ∈ l ∧ p x} a := by
  refine ⟨⟨List.mem_of_find?_eq_some h, List.find?_some h⟩, ?_⟩
  rintro x ⟨hx, hpx⟩
  rcases find?_first hl h hx hpx with rfl | hlt
  · exact le_rfl
  · exact le_of_lt hlt

theorem find?_isGreatest (hl : l.Pairwise (· > ·)) (h : l.find? p = some a) :
    IsGreatest {x | x ∈ l ∧ p x} a :=
  find?_isLeast (α := αᵒᵈ) hl h

end Find

theorem mem_allBytes_drop {k : Nat} {b : UInt8} : b ∈ allBytes.drop k ↔ k ≤ b.toNat := by
  rw [List.mem_drop_iff_getElem]
  simp only [allBytes, List.getElem_map, List.getElem_range, List.length_map, List.length_range]
  constructor
  · rintro ⟨i, hi, rfl⟩
    rw [UInt8.toNat_ofNat', Nat.mod_eq_of_lt (by omega)]
    omega
  · intro hk
    have hlt := b.toNat_lt
    refine ⟨b.toNat - k, by omega, ?_⟩
    rw [show k + (b.toNat - k) = b.toNat by omega, UInt8.ofNat_toNat]

theorem mem_allBytes_take {k : Nat} {b : UInt8} : b ∈ allBytes.take k ↔ b.toNat < k := by
  rw [List.mem_take_iff_getElem]
  simp only [allBytes, List.getElem_map, List.getElem_range, List.length_map, List.length_range]
  constructor
  · rintro ⟨i, hi, rfl⟩
    rw [UInt8.toNat_ofNat', Nat.mod_eq_of_lt (by omega)]
    omega
  · intro hk
    have hlt := b.toNat_lt
    exact ⟨b.toNat, by omega, UInt8.ofNat_toNat⟩

/-! ## 2. Steps over a byte table -/

/-- A node that is a table of bytes: a byte's child index is the byte. -/
structure IsTable (n : INode P) (bound : UInt8 → Bool) : Prop where
  bound_iff : ∀ b, bound b ↔ (n.child b).isSome
  find : ∀ {b}, bound b → ∃ i, n.findChild b = some (b.toNat, i)

section Table

variable {n : INode P} {bound : UInt8 → Bool} {l : List UInt8} {s : Set UInt8}
  (h : n.IsTable bound) (hs : ∀ b, b ∈ l ↔ b ∈ s)
include h hs

theorem IsTable.mem_iff : {x | x ∈ l ∧ bound x} = n.boundIn s := by
  ext b
  rw [boundIn, Set.mem_ofPred_eq, Set.mem_ofPred_eq, hs, h.bound_iff]

theorem IsTable.findsLeast (hl : l.Pairwise (· < ·)) :
    n.FindsLeast s (n.iterResultByte (l.find? bound)) := by
  cases hfind : l.find? bound with
  | none =>
    rw [List.find?_eq_none] at hfind
    change n.boundIn s = ∅
    rw [← h.mem_iff hs, Set.eq_empty_iff_forall_notMem]
    rintro x ⟨hx, hbx⟩
    exact hfind x hx hbx
  | some b =>
    refine ⟨⟨h.find (List.find?_some hfind), rfl⟩, ?_⟩
    rw [← h.mem_iff hs]
    exact find?_isLeast hl hfind

theorem IsTable.findsGreatest (hl : l.Pairwise (· > ·)) :
    n.FindsGreatest s (n.iterResultByte (l.find? bound)) := by
  cases hfind : l.find? bound with
  | none =>
    rw [List.find?_eq_none] at hfind
    change n.boundIn s = ∅
    rw [← h.mem_iff hs, Set.eq_empty_iff_forall_notMem]
    rintro x ⟨hx, hbx⟩
    exact hfind x hx hbx
  | some b =>
    refine ⟨⟨h.find (List.find?_some hfind), rfl⟩, ?_⟩
    rw [← h.mem_iff hs]
    exact find?_isGreatest hl hfind

end Table

theorem WF.isTable48 {keyPrefix : KeyPrefix} {count : Nat} {childIndexes : UInt8 → UInt8}
    {children : List (Option P)} (h : WF ⟨keyPrefix, count, .i48 childIndexes children⟩) :
    IsTable ⟨keyPrefix, count, .i48 childIndexes children⟩
      (fun i => decide (childIndexes i ≠ emptyChild)) := by
  have hl : SparseRep childIndexes children _ := h.layout
  refine ⟨?_, ?_⟩
  · intro b
    rw [decide_eq_true_eq, Option.isSome_iff_ne_none]
    exact not_congr (hl.eq_none_iff b).symm
  · intro b hb
    exact ⟨_, if_pos (of_decide_eq_true hb)⟩

theorem WF.isTable256 {keyPrefix : KeyPrefix} {count : Nat} {children : UInt8 → Option P}
    (h : WF ⟨keyPrefix, count, .i256 children⟩) :
    IsTable ⟨keyPrefix, count, .i256 children⟩ (fun i => (children i).isSome) := by
  have hl : children = _ := h.layout
  refine ⟨?_, ?_⟩
  · intro b
    rw [← hl]
  · intro b hb
    exact ⟨_, if_pos hb⟩

theorem allBytes_drop_pairwise (k : Nat) : (allBytes.drop k).Pairwise (· < ·) :=
  allBytes_pairwise.sublist (List.drop_sublist _ _)

theorem allBytes_take_reverse_pairwise (k : Nat) : (allBytes.take k).reverse.Pairwise (· > ·) :=
  List.pairwise_reverse.mpr (allBytes_pairwise.sublist (List.take_sublist _ _))

/-! ## 3. Steps over sorted keys -/

/-- A node with sorted keys: a byte's child index is its place among them. -/
structure IsSorted (n : INode P) (keys : List UInt8) : Prop where
  count_le : n.childrenCount ≤ keys.length
  length_le : keys.length ≤ 16
  sorted : ∀ {i j a b}, i < j → j < n.childrenCount → keys[i]? = some a → keys[j]? = some b → a < b
  find_iff : ∀ {b ci i}, n.findChild b = some (ci, i) ↔
    ci < n.childrenCount ∧ keys[ci]? = some b ∧ i = ci
  bound_iff : ∀ b, (n.child b).isSome ↔ ∃ i < n.childrenCount, keys[i]? = some b

theorem isSorted_of_dense {n : INode P} {capacity : Nat} {keys : List UInt8}
    {children : List (Option P)} (h : DenseRep capacity keys children n.childrenCount n.child)
    (hcap : capacity ≤ 16)
    (hfind : ∀ b, n.findChild b = (findKey keys n.childrenCount b).map fun i => (i, i)) :
    n.IsSorted keys where
  count_le := h.keys_length ▸ h.count_le
  length_le := h.keys_length ▸ hcap
  sorted := h.sorted
  find_iff := by
    intro b ci i
    rw [hfind, Option.map_eq_some_iff]
    constructor
    · rintro ⟨j, hj, heq⟩
      cases heq
      exact ⟨((h.findKey_eq_some_iff b _).mp hj).1, ((h.findKey_eq_some_iff b _).mp hj).2, rfl⟩
    · rintro ⟨hlt, hget, rfl⟩
      exact ⟨i, (h.findKey_eq_some_iff b _).mpr ⟨hlt, hget⟩, rfl⟩
  bound_iff := by
    intro b
    rw [Option.isSome_iff_exists]
    constructor
    · rintro ⟨p, hp⟩
      obtain ⟨i, hi, hb, -⟩ := (h.spec b p).mp hp
      exact ⟨i, hi, hb⟩
    · rintro ⟨i, hi, hb⟩
      obtain ⟨p, hp⟩ := h.defined hi
      exact ⟨p, (h.spec b p).mpr ⟨i, hi, hb, hp⟩⟩

namespace IsSorted

variable {n : INode P} {keys : List UInt8} (h : n.IsSorted keys)
include h

theorem exists_key {i : Nat} (hi : i < n.childrenCount) : ∃ b, keys[i]? = some b :=
  ⟨_, List.getElem?_eq_getElem (Nat.lt_of_lt_of_le hi h.count_le)⟩

theorem le_iff {i j : Nat} {a b : UInt8} (hi : i < n.childrenCount) (hj : j < n.childrenCount)
    (ha : keys[i]? = some a) (hb : keys[j]? = some b) : a ≤ b ↔ i ≤ j := by
  rcases Nat.lt_trichotomy i j with hlt | heq | hgt
  · exact iff_of_true (le_of_lt (h.sorted hlt hj ha hb)) (Nat.le_of_lt hlt)
  · subst heq
    rw [ha, Option.some_inj] at hb
    exact iff_of_true (hb ▸ le_rfl) (Nat.le_refl _)
  · exact iff_of_false (not_le_of_gt (h.sorted hgt hi hb ha)) (Nat.not_le_of_gt hgt)

theorem isResult {i : Nat} {b : UInt8} (hi : i < n.childrenCount) (hb : keys[i]? = some b) :
    n.IsResult (n.iterResult b i) :=
  ⟨⟨i, h.find_iff.mpr ⟨hi, hb, rfl⟩⟩, rfl⟩

/-- An index whose key is in the set, and no lower one's. -/
theorem findsLeast {s : Set UInt8} {i : Nat} {b : UInt8} (hi : i < n.childrenCount)
    (hb : keys[i]? = some b) (hbs : b ∈ s)
    (hlow : ∀ {j a}, j < n.childrenCount → keys[j]? = some a → a ∈ s → i ≤ j) :
    n.FindsLeast s (some (n.iterResult b i)) := by
  refine ⟨h.isResult hi hb, ⟨hbs, (h.bound_iff b).mpr ⟨i, hi, hb⟩⟩, ?_⟩
  rintro a ⟨has, hba⟩
  obtain ⟨j, hj, ha⟩ := (h.bound_iff a).mp hba
  exact (h.le_iff hi hj hb ha).mpr (hlow hj ha has)

theorem findsGreatest {s : Set UInt8} {i : Nat} {b : UInt8} (hi : i < n.childrenCount)
    (hb : keys[i]? = some b) (hbs : b ∈ s)
    (hhigh : ∀ {j a}, j < n.childrenCount → keys[j]? = some a → a ∈ s → j ≤ i) :
    n.FindsGreatest s (some (n.iterResult b i)) := by
  refine ⟨h.isResult hi hb, ⟨hbs, (h.bound_iff b).mpr ⟨i, hi, hb⟩⟩, ?_⟩
  rintro a ⟨has, hba⟩
  obtain ⟨j, hj, ha⟩ := (h.bound_iff a).mp hba
  exact (h.le_iff hj hi ha hb).mpr (hhigh hj ha has)

theorem boundIn_eq_empty {s : Set UInt8}
    (hno : ∀ {j a}, j < n.childrenCount → keys[j]? = some a → a ∉ s) : n.boundIn s = ∅ := by
  rw [Set.eq_empty_iff_forall_notMem]
  rintro a ⟨has, hba⟩
  obtain ⟨j, hj, ha⟩ := (h.bound_iff a).mp hba
  exact hno hj ha has

omit h in
theorem iterResultAt_ok {i : Nat} {b : UInt8} (hb : keys[i]? = some b) :
    n.iterResultAt keys i = .ok (n.iterResult b i) := by
  rw [iterResultAt, hb]

theorem begin_spec (hpos : 0 < n.childrenCount) :
    ∃ e, n.iterResultAt keys 0 = .ok e ∧ n.FindsLeast Set.univ (some e) := by
  obtain ⟨b, hb⟩ := h.exists_key hpos
  exact ⟨_, iterResultAt_ok hb, h.findsLeast hpos hb trivial fun _ _ _ => Nat.zero_le _⟩

theorem last_spec (hpos : 0 < n.childrenCount) :
    ∃ e, n.iterResultAt keys ((n.childrenCount + 255) % 256) = .ok e ∧
      n.FindsGreatest Set.univ (some e) := by
  have h1 := h.count_le
  have h2 := h.length_le
  have hidx : (n.childrenCount + 255) % 256 = n.childrenCount - 1 := by omega
  obtain ⟨b, hb⟩ := h.exists_key (i := n.childrenCount - 1) (by omega)
  rw [hidx]
  exact ⟨_, iterResultAt_ok hb,
    h.findsGreatest (by omega) hb trivial fun hj _ _ => Nat.le_sub_one_of_lt hj⟩

theorem next_spec {b : UInt8} {ci : Nat} (hci : ci < n.childrenCount) (hb : keys[ci]? = some b) :
    ∃ r, (if n.childrenCount ≤ (ci + 1) % 256 then .ok none
        else (n.iterResultAt keys ((ci + 1) % 256)).map some) = Except.ok (ε := Fault) r ∧
      n.FindsLeast (Set.Ioi b) r := by
  have h1 := h.count_le
  have h2 := h.length_le
  have hidx : (ci + 1) % 256 = ci + 1 := by omega
  rw [hidx]
  by_cases hle : n.childrenCount ≤ ci + 1
  · rw [if_pos hle]
    refine ⟨none, rfl, h.boundIn_eq_empty fun hj ha hlt => ?_⟩
    have := (h.le_iff hj hci ha hb).mpr (by omega)
    exact not_lt_of_ge this hlt
  · rw [if_neg hle]
    obtain ⟨b', hb'⟩ := h.exists_key (i := ci + 1) (by omega)
    rw [iterResultAt_ok hb']
    refine ⟨_, rfl, h.findsLeast (by omega) hb' (h.sorted (by omega) (by omega) hb hb') ?_⟩
    intro j a hj ha hlt
    by_contra hlt'
    exact not_lt_of_ge ((h.le_iff hj hci ha hb).mpr (by omega)) hlt

theorem prior_spec {b : UInt8} {ci : Nat} (hci : ci < n.childrenCount) (hb : keys[ci]? = some b) :
    ∃ r, (if ci = 0 then .ok none
        else (n.iterResultAt keys (ci - 1)).map some) = Except.ok (ε := Fault) r ∧
      n.FindsGreatest (Set.Iio b) r := by
  by_cases h0 : ci = 0
  · rw [if_pos h0]
    refine ⟨none, rfl, h.boundIn_eq_empty fun hj ha hlt => ?_⟩
    have := (h.le_iff hci hj hb ha).mpr (by omega)
    exact not_lt_of_ge this hlt
  · rw [if_neg h0]
    obtain ⟨b', hb'⟩ := h.exists_key (i := ci - 1) (by omega)
    rw [iterResultAt_ok hb']
    refine ⟨_, rfl, h.findsGreatest (by omega) hb' (h.sorted (by omega) (by omega) hb' hb) ?_⟩
    intro j a hj ha hlt
    by_contra hlt'
    exact not_lt_of_ge ((h.le_iff hci hj hb ha).mpr (by omega)) hlt

omit h in
theorem mem_zipIdx_iff {b : UInt8} {i : Nat} :
    (b, i) ∈ (keys.take n.childrenCount).zipIdx ↔ i < n.childrenCount ∧ keys[i]? = some b := by
  rw [List.mk_mem_zipIdx_iff_getElem?, List.getElem?_take]
  by_cases hi : i < n.childrenCount <;> simp [hi]

omit h in
/-- The list that the two searches for a byte go through is in the order of the indexes. -/
theorem zipIdx_pairwise : (keys.take n.childrenCount).zipIdx.Pairwise fun x y => x.2 < y.2 := by
  rw [List.pairwise_iff_getElem]
  intro i j hi hj hij
  simpa using hij

theorem gteKeyByte_spec (b : UInt8) :
    n.FindsLeast (Set.Ici b) (((keys.take n.childrenCount).zipIdx.find? fun key => b ≤ key.1).map
      fun key => n.iterResult key.1 key.2) := by
  cases hfind : (keys.take n.childrenCount).zipIdx.find? fun key => b ≤ key.1 with
  | none =>
    rw [List.find?_eq_none] at hfind
    refine h.boundIn_eq_empty fun hj ha hle => ?_
    exact hfind _ (mem_zipIdx_iff.mpr ⟨hj, ha⟩) (decide_eq_true hle)
  | some e =>
    obtain ⟨a, i⟩ := e
    obtain ⟨hi, ha⟩ := mem_zipIdx_iff.mp (List.mem_of_find?_eq_some hfind)
    have hle := List.find?_some hfind
    rw [decide_eq_true_eq] at hle
    refine h.findsLeast hi ha hle ?_
    intro j c hj hc hle'
    rcases find?_first zipIdx_pairwise hfind (mem_zipIdx_iff.mpr ⟨hj, hc⟩) (decide_eq_true hle')
      with heq | hlt
    · cases heq
      exact Nat.le_refl _
    · exact Nat.le_of_lt hlt

theorem lteKeyByte_spec (b : UInt8) :
    n.FindsGreatest (Set.Iic b) (((keys.take n.childrenCount).zipIdx.reverse.find?
      fun key => key.1 ≤ b).map fun key => n.iterResult key.1 key.2) := by
  cases hfind : (keys.take n.childrenCount).zipIdx.reverse.find? fun key => key.1 ≤ b with
  | none =>
    rw [List.find?_eq_none] at hfind
    refine h.boundIn_eq_empty fun hj ha hle => ?_
    exact hfind _ (List.mem_reverse.mpr (mem_zipIdx_iff.mpr ⟨hj, ha⟩)) (decide_eq_true hle)
  | some e =>
    obtain ⟨a, i⟩ := e
    obtain ⟨hi, ha⟩ := mem_zipIdx_iff.mp (List.mem_reverse.mp (List.mem_of_find?_eq_some hfind))
    have hle := List.find?_some hfind
    rw [decide_eq_true_eq] at hle
    refine h.findsGreatest hi ha hle ?_
    intro j c hj hc hle'
    rcases find?_first (List.pairwise_reverse.mpr zipIdx_pairwise) hfind
      (List.mem_reverse.mpr (mem_zipIdx_iff.mpr ⟨hj, hc⟩)) (decide_eq_true hle') with heq | hlt
    · cases heq
      exact Nat.le_refl _
    · exact Nat.le_of_lt hlt

end IsSorted

/-! ## 4. Steps over a node -/

section Steps

variable {n : INode P} (h : n.WF)
include h

/-- What the layout of a node is for an iterator. -/
theorem WF.layout_cases :
    (∃ keys, n.IsSorted keys ∧ 0 < n.childrenCount ∧
      ((∃ children, n.layout = .i4 keys children) ∨ ∃ children, n.layout = .i16 keys children)) ∨
    (∃ childIndexes children, n.layout = .i48 childIndexes children ∧
      n.IsTable fun i => decide (childIndexes i ≠ emptyChild)) ∨
    (∃ children, n.layout = .i256 children ∧ n.IsTable fun i => (children i).isSome) := by
  have hcount := h.count
  have hmin := h.minSize_le
  have hcap := h.le_capacity
  have hl := h.layout
  obtain ⟨keyPrefix, count, layout⟩ := n
  cases layout with
  | i4 keys children =>
    refine .inl ⟨keys, isSorted_of_dense hl (by omega) fun _ => rfl, ?_, .inl ⟨children, rfl⟩⟩
    simp only [type, NodeType.minSize, NodeType.capacity] at hmin hcap hcount ⊢
    omega
  | i16 keys children =>
    refine .inl ⟨keys, isSorted_of_dense hl (by omega) fun _ => rfl, ?_, .inr ⟨children, rfl⟩⟩
    simp only [type, NodeType.minSize, NodeType.capacity] at hmin hcap hcount ⊢
    omega
  | i48 childIndexes children => exact .inr (.inl ⟨_, _, rfl, h.isTable48⟩)
  | i256 children => exact .inr (.inr ⟨_, rfl, h.isTable256⟩)

theorem WF.exists_bound : ∃ b, (n.child b).isSome := by
  have hmin := h.minSize_le
  refine degree_pos_iff.mp (Nat.lt_of_lt_of_le ?_ hmin)
  cases htype : n.type with
  | leaf => exact absurd htype n.type_ne_leaf
  | _ => decide

omit h in
theorem FindsLeast.elim_ok {r : Option IterResult} (hr : n.FindsLeast Set.univ r)
    (hb : ∃ b, (n.child b).isSome) :
    ∃ e, r.elim (Except.error Fault.cannotHappen) Except.ok = .ok e ∧
      n.FindsLeast Set.univ (some e) := by
  obtain ⟨b, hb⟩ := hb
  cases r with
  | none =>
    have hmem : b ∈ n.boundIn Set.univ := ⟨trivial, hb⟩
    rw [show n.boundIn Set.univ = ∅ from hr] at hmem
    exact absurd hmem (Set.notMem_empty b)
  | some e => exact ⟨e, rfl, hr⟩

omit h in
theorem FindsGreatest.elim_ok {r : Option IterResult} (hr : n.FindsGreatest Set.univ r)
    (hb : ∃ b, (n.child b).isSome) :
    ∃ e, r.elim (Except.error Fault.cannotHappen) Except.ok = .ok e ∧
      n.FindsGreatest Set.univ (some e) := by
  obtain ⟨b, hb⟩ := hb
  cases r with
  | none =>
    have hmem : b ∈ n.boundIn Set.univ := ⟨trivial, hb⟩
    rw [show n.boundIn Set.univ = ∅ from hr] at hmem
    exact absurd hmem (Set.notMem_empty b)
  | some e => exact ⟨e, rfl, hr⟩

theorem WF.begin : ∃ e, n.begin = .ok e ∧ n.FindsLeast Set.univ (some e) := by
  have hall : ∀ b : UInt8, b ∈ allBytes ↔ b ∈ Set.univ := fun b =>
    iff_of_true (mem_allBytes b) trivial
  rcases h.layout_cases with ⟨keys, hs, hpos, ⟨_, hl⟩ | ⟨_, hl⟩⟩ | ⟨_, _, hl, ht⟩ | ⟨_, hl, ht⟩
  · simp only [INode.begin, hl]
    exact hs.begin_spec hpos
  · simp only [INode.begin, hl]
    exact hs.begin_spec hpos
  · simp only [INode.begin, hl]
    exact (ht.findsLeast hall allBytes_pairwise).elim_ok h.exists_bound
  · simp only [INode.begin, hl]
    exact (ht.findsLeast hall allBytes_pairwise).elim_ok h.exists_bound

theorem WF.last : ∃ e, n.last = .ok e ∧ n.FindsGreatest Set.univ (some e) := by
  have hall : ∀ b : UInt8, b ∈ allBytes.reverse ↔ b ∈ Set.univ := fun b =>
    iff_of_true (List.mem_reverse.mpr (mem_allBytes b)) trivial
  have hpw : allBytes.reverse.Pairwise (· > ·) := List.pairwise_reverse.mpr allBytes_pairwise
  rcases h.layout_cases with ⟨keys, hs, hpos, ⟨_, hl⟩ | ⟨_, hl⟩⟩ | ⟨_, _, hl, ht⟩ | ⟨_, hl, ht⟩
  · simp only [INode.last, hl]
    exact hs.last_spec hpos
  · simp only [INode.last, hl]
    exact hs.last_spec hpos
  · simp only [INode.last, hl]
    exact (ht.findsGreatest hall hpw).elim_ok h.exists_bound
  · simp only [INode.last, hl]
    exact (ht.findsGreatest hall hpw).elim_ok h.exists_bound

omit h in
/-- The child index of a byte in a table is the byte. -/
theorem IsTable.index_eq {bound : UInt8 → Bool} (ht : n.IsTable bound) (hn : n.WF) {b : UInt8}
    {ci i : Nat} (hfind : n.findChild b = some (ci, i)) : ci = b.toNat := by
  obtain ⟨p, hp, -⟩ := hn.findChild_eq_some hfind
  obtain ⟨j, hj⟩ := ht.find ((ht.bound_iff b).mpr (by rw [hp]; rfl))
  rw [hfind] at hj
  cases hj
  rfl

theorem WF.next {b : UInt8} {ci i : Nat} (hfind : n.findChild b = some (ci, i)) :
    ∃ r, n.next ci = .ok r ∧ n.FindsLeast (Set.Ioi b) r := by
  have hall : ∀ a : UInt8, a ∈ allBytes.drop (b.toNat + 1) ↔ a ∈ Set.Ioi b := fun a =>
    mem_allBytes_drop.trans UInt8.lt_iff_toNat_lt.symm
  rcases h.layout_cases with ⟨keys, hs, hpos, ⟨_, hl⟩ | ⟨_, hl⟩⟩ | ⟨_, _, hl, ht⟩ | ⟨_, hl, ht⟩
  · obtain ⟨hci, hb, -⟩ := hs.find_iff.mp hfind
    simp only [INode.next, hl]
    exact hs.next_spec hci hb
  · obtain ⟨hci, hb, -⟩ := hs.find_iff.mp hfind
    simp only [INode.next, hl]
    exact hs.next_spec hci hb
  · simp only [INode.next, hl, ht.index_eq h hfind]
    exact ⟨_, rfl, ht.findsLeast hall (allBytes_drop_pairwise _)⟩
  · simp only [INode.next, hl, ht.index_eq h hfind]
    exact ⟨_, rfl, ht.findsLeast hall (allBytes_drop_pairwise _)⟩

theorem WF.prior {b : UInt8} {ci i : Nat} (hfind : n.findChild b = some (ci, i)) :
    ∃ r, n.prior ci = .ok r ∧ n.FindsGreatest (Set.Iio b) r := by
  have hall : ∀ a : UInt8, a ∈ (allBytes.take b.toNat).reverse ↔ a ∈ Set.Iio b := fun a =>
    List.mem_reverse.trans (mem_allBytes_take.trans UInt8.lt_iff_toNat_lt.symm)
  rcases h.layout_cases with ⟨keys, hs, hpos, ⟨_, hl⟩ | ⟨_, hl⟩⟩ | ⟨_, _, hl, ht⟩ | ⟨_, hl, ht⟩
  · obtain ⟨hci, hb, -⟩ := hs.find_iff.mp hfind
    simp only [INode.prior, hl]
    exact hs.prior_spec hci hb
  · obtain ⟨hci, hb, -⟩ := hs.find_iff.mp hfind
    simp only [INode.prior, hl]
    exact hs.prior_spec hci hb
  · simp only [INode.prior, hl, ht.index_eq h hfind]
    exact ⟨_, rfl, ht.findsGreatest hall (allBytes_take_reverse_pairwise _)⟩
  · simp only [INode.prior, hl, ht.index_eq h hfind]
    exact ⟨_, rfl, ht.findsGreatest hall (allBytes_take_reverse_pairwise _)⟩

theorem WF.gteKeyByte (b : UInt8) : n.FindsLeast (Set.Ici b) (n.gteKeyByte b) := by
  have hall : ∀ a : UInt8, a ∈ allBytes.drop b.toNat ↔ a ∈ Set.Ici b := fun a =>
    mem_allBytes_drop.trans UInt8.le_iff_toNat_le.symm
  rcases h.layout_cases with ⟨keys, hs, hpos, ⟨_, hl⟩ | ⟨_, hl⟩⟩ | ⟨_, _, hl, ht⟩ | ⟨_, hl, ht⟩
  · simp only [INode.gteKeyByte, hl]
    exact hs.gteKeyByte_spec b
  · simp only [INode.gteKeyByte, hl]
    exact hs.gteKeyByte_spec b
  · simp only [INode.gteKeyByte, hl]
    exact ht.findsLeast hall (allBytes_drop_pairwise _)
  · simp only [INode.gteKeyByte, hl]
    exact ht.findsLeast hall (allBytes_drop_pairwise _)

theorem WF.lteKeyByte (b : UInt8) : n.FindsGreatest (Set.Iic b) (n.lteKeyByte b) := by
  have hall : ∀ a : UInt8, a ∈ (allBytes.take (b.toNat + 1)).reverse ↔ a ∈ Set.Iic b := fun a =>
    List.mem_reverse.trans
      (mem_allBytes_take.trans (Nat.lt_succ_iff.trans UInt8.le_iff_toNat_le.symm))
  rcases h.layout_cases with ⟨keys, hs, hpos, ⟨_, hl⟩ | ⟨_, hl⟩⟩ | ⟨_, _, hl, ht⟩ | ⟨_, hl, ht⟩
  · simp only [INode.lteKeyByte, hl]
    exact hs.lteKeyByte_spec b
  · simp only [INode.lteKeyByte, hl]
    exact hs.lteKeyByte_spec b
  · simp only [INode.lteKeyByte, hl]
    exact ht.findsGreatest hall (allBytes_take_reverse_pairwise _)
  · simp only [INode.lteKeyByte, hl]
    exact ht.findsGreatest hall (allBytes_take_reverse_pairwise _)

end Steps

/-! ## 5. All children -/

theorem subtrees_of_dense {capacity count : Nat} {keys : List UInt8} {children : List (Option P)}
    {f : UInt8 → Option P} (h : DenseRep capacity keys children count f) :
    (keys.take count).Nodup ∧ (∀ b, b ∈ keys.take count ↔ (f b).isSome) ∧
      (children.take count).filterMap id = (keys.take count).filterMap f := by
  refine ⟨h.pairwise_lt.imp fun hlt => ne_of_lt hlt, ?_, ?_⟩
  · intro b
    rw [List.mem_iff_getElem?, Option.isSome_iff_exists]
    constructor
    · rintro ⟨i, hi⟩
      rw [List.getElem?_take] at hi
      split at hi
      · rename_i hlt
        obtain ⟨p, hp⟩ := h.defined hlt
        exact ⟨p, (h.spec b p).mpr ⟨i, hlt, hi, hp⟩⟩
      · cases hi
    · rintro ⟨p, hp⟩
      obtain ⟨i, hlt, hi, -⟩ := (h.spec b p).mp hp
      exact ⟨i, by rw [List.getElem?_take_of_lt hlt, hi]⟩
  · have hmap : children.take count = (keys.take count).map f := by
      apply List.ext_getElem?
      intro i
      rw [List.getElem?_map, List.getElem?_take, List.getElem?_take]
      by_cases hi : i < count
      · obtain ⟨b, p, hb, hp, hfb⟩ := h.key_exists hi
        rw [if_pos hi, if_pos hi, hb, hp, Option.map_some, hfb]
      · rw [if_neg hi, if_neg hi, Option.map_none]
    rw [hmap, List.filterMap_map, Function.id_comp]

open Classical in
theorem subtrees_of_sparse {childIndexes : UInt8 → UInt8} {children : List (Option P)}
    {f : UInt8 → Option P} (h : SparseRep childIndexes children f) :
    ∃ bs : List UInt8, bs.Nodup ∧ (∀ b, b ∈ bs ↔ (f b).isSome) ∧
      children.filterMap id = bs.filterMap f := by
  -- The byte whose entry in the table is a given slot.
  let inv : Nat → Option UInt8 := fun i =>
    if hi : ∃ b, childIndexes b ≠ emptyChild ∧ (childIndexes b).toNat = i then some hi.choose
    else none
  have hinv : ∀ {i b}, inv i = some b ↔ childIndexes b ≠ emptyChild ∧ (childIndexes b).toNat = i := by
    intro i b
    by_cases hi : ∃ b, childIndexes b ≠ emptyChild ∧ (childIndexes b).toNat = i
    · simp only [inv, dif_pos hi, Option.some_inj]
      constructor
      · rintro rfl
        exact hi.choose_spec
      · rintro ⟨hb, hbi⟩
        refine h.inj hi.choose_spec.1 (UInt8.toNat_inj.mp ?_)
        rw [hi.choose_spec.2, hbi]
    · simp only [inv, dif_neg hi]
      exact iff_of_false (by simp) fun hb => hi ⟨b, hb⟩
  have hslot : ∀ i < 48, (children[i]?).join = (inv i).bind f := by
    intro i hi
    cases hb : inv i with
    | none =>
      rw [Option.bind_none]
      cases hc : (children[i]?).join with
      | none => rfl
      | some p =>
        rw [Option.join_eq_some_iff] at hc
        obtain ⟨b, hbi⟩ := h.onto hc
        have hne : childIndexes b ≠ emptyChild := by
          intro heq
          rw [heq] at hbi
          exact absurd hbi (by rw [emptyChild]; change 255 ≠ i; omega)
        rw [hinv.mpr ⟨hne, hbi⟩] at hb
        cases hb
    | some b =>
      obtain ⟨hne, rfl⟩ := hinv.mp hb
      obtain ⟨p, hp, hfb⟩ := h.bound hne
      rw [hp, Option.join_some, Option.bind_some, hfb]
  have hchildren : children = (List.range 48).map fun i => (children[i]?).join := by
    apply List.ext_getElem?
    intro i
    have hlen := h.children_length
    rw [List.getElem?_map]
    by_cases hi : i < 48
    · rw [List.getElem?_range hi, Option.map_some, List.getElem?_eq_getElem (by omega),
        Option.join_some]
    · rw [List.getElem?_eq_none (by omega), List.getElem?_eq_none (by simpa using hi),
        Option.map_none]
  refine ⟨(List.range 48).filterMap inv, ?_, ?_, ?_⟩
  · refine List.nodup_range.filterMap fun i j b hi hj => ?_
    rw [← (hinv.mp hi).2, ← (hinv.mp hj).2]
  · intro b
    simp only [List.mem_filterMap, List.mem_range, hinv]
    constructor
    · rintro ⟨i, -, hne, -⟩
      obtain ⟨p, -, hp⟩ := h.bound hne
      rw [hp]
      rfl
    · intro hb
      have hne : childIndexes b ≠ emptyChild := by
        intro heq
        rw [h.empty heq] at hb
        cases hb
      exact ⟨_, h.index_lt hne, hne, rfl⟩
  · rw [List.filterMap_filterMap]
    conv_lhs => rw [hchildren]
    rw [List.filterMap_map, Function.id_comp]
    exact List.filterMap_congr fun i hi => hslot i (List.mem_range.mp hi)

/-- The children that `delete_subtree` visits are those of all bytes, each once. -/
theorem WF.subtrees {n : INode P} (h : n.WF) :
    ∃ bs : List UInt8, bs.Nodup ∧ (∀ b, b ∈ bs ↔ (n.child b).isSome) ∧
      n.subtrees = bs.filterMap n.child := by
  have hl := h.layout
  obtain ⟨keyPrefix, count, layout⟩ := n
  cases layout with
  | i4 keys children => exact ⟨_, subtrees_of_dense hl⟩
  | i16 keys children => exact ⟨_, subtrees_of_dense hl⟩
  | i48 childIndexes children => exact subtrees_of_sparse hl
  | i256 children =>
    refine ⟨boundBytes children, allBytes_nodup.filter _, ?_, ?_⟩
    · intro b
      rw [← show children = _ from hl]
      simp [boundBytes, mem_allBytes]
    · simp only [INode.subtrees]
      rw [← show children = _ from hl, boundBytes, List.filterMap_filter]
      refine List.filterMap_congr fun b _ => ?_
      cases children b <;> rfl

/-- The assertion of `delete_subtree` on the number of children. -/
theorem WF.subtrees_length {n : INode P} (h : n.WF) :
    n.subtrees.length % 256 = n.childrenCount := by
  obtain ⟨bs, hnodup, hmem, hsub⟩ := h.subtrees
  have hlen : (bs.filterMap n.child).length = bs.length := by
    have hall : ∀ b ∈ bs, (n.child b).isSome := fun b hb => (hmem b).mp hb
    rw [List.length_filterMap_eq_countP, List.countP_eq_length]
    exact hall
  rw [h.count, hsub, hlen, degree, ← List.toFinset_card_of_nodup hnodup]
  congr 2
  ext b
  simp [hmem]

end INode

end Unodb
