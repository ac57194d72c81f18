import Unodb.Node.Layout

/-!
# Sorted key arrays

`basic_inode_4` and `basic_inode_16` keep their keys sorted at the front of a key array, with the
child of a key at the same index of the pointer array.  Opening and closing a gap are the two ways
in which these arrays change.
-/

open Words Arrays

namespace Unodb

variable {P : Type}

/-- The first `count` entries of the two arrays are the graph of `f`, in key order. -/
structure DenseRep (capacity : Nat) (keys : List UInt8) (children : List (Option P)) (count : Nat)
    (f : UInt8 → Option P) : Prop where
  keys_length : keys.length = capacity
  children_length : children.length = capacity
  count_le : count ≤ capacity
  sorted : ∀ {i j a b}, i < j → j < count → keys[i]? = some a → keys[j]? = some b → a < b
  defined : ∀ {i}, i < count → ∃ p, children[i]? = some (some p)
  spec : ∀ b p, f b = some p ↔ ∃ i < count, keys[i]? = some b ∧ children[i]? = some (some p)

namespace DenseRep

variable {capacity : Nat} {keys : List UInt8} {children : List (Option P)} {count : Nat}
  {f : UInt8 → Option P}

theorem key_exists (h : DenseRep capacity keys children count f) {i : Nat} (hi : i < count) :
    ∃ b p, keys[i]? = some b ∧ children[i]? = some (some p) ∧ f b = some p := by
  obtain ⟨p, hp⟩ := h.defined hi
  have hlt : i < keys.length := by
    have := h.keys_length
    have := h.count_le
    omega
  exact ⟨keys[i], p, List.getElem?_eq_getElem hlt, hp,
    (h.spec _ _).mpr ⟨i, hi, List.getElem?_eq_getElem hlt, hp⟩⟩

/-- A key stands at one index only. -/
theorem index_inj (h : DenseRep capacity keys children count f) {i j : Nat} {b : UInt8}
    (hi : i < count) (hj : j < count) (hbi : keys[i]? = some b) (hbj : keys[j]? = some b) :
    i = j := by
  rcases Nat.lt_trichotomy i j with hlt | heq | hgt
  · exact absurd (h.sorted hlt hj hbi hbj) (lt_irrefl b)
  · exact heq
  · exact absurd (h.sorted hgt hi hbj hbi) (lt_irrefl b)

theorem eq_none_iff (h : DenseRep capacity keys children count f) (b : UInt8) :
    f b = none ↔ ∀ i < count, keys[i]? ≠ some b := by
  constructor
  · intro hb i hi hbi
    obtain ⟨b', p, hb', -, hf⟩ := h.key_exists hi
    rw [hbi, Option.some_inj] at hb'
    subst hb'
    rw [hb] at hf
    cases hf
  · intro hall
    by_contra hne
    obtain ⟨p, hp⟩ := Option.ne_none_iff_exists'.mp hne
    obtain ⟨i, hi, hbi, -⟩ := (h.spec _ _).mp hp
    exact hall i hi hbi

theorem pairwise_lt (h : DenseRep capacity keys children count f) :
    (keys.take count).Pairwise (· < ·) := by
  rw [List.pairwise_iff_getElem]
  intro i j hi hj hij
  rw [List.length_take] at hi hj
  apply h.sorted hij (by omega)
  · rw [List.getElem_take, List.getElem?_eq_getElem]
  · rw [List.getElem_take, List.getElem?_eq_getElem]

theorem pairwise_le (h : DenseRep capacity keys children count f) :
    (keys.take count).Pairwise (· ≤ ·) :=
  h.pairwise_lt.imp fun hlt => le_of_lt hlt

/-- The array position at which an absent byte belongs. -/
structure InsertPos (keys : List UInt8) (count : Nat) (b : UInt8) (pos : Nat) : Prop where
  le : pos ≤ count
  below : ∀ {i a}, i < pos → keys[i]? = some a → a < b
  above : ∀ {i a}, pos ≤ i → i < count → keys[i]? = some a → b < a

/-- Opening a gap adds a binding. -/
theorem insert (h : DenseRep capacity keys children count f) {b : UInt8} {p : P} {pos : Nat}
    (hpos : InsertPos keys count b pos) (hb : f b = none) {capacity' : Nat} {keys' : List UInt8}
    {children' : List (Option P)} (hkl : keys'.length = capacity')
    (hcl : children'.length = capacity') (hcount : count + 1 ≤ capacity')
    (hkeys : ∀ j ≤ count, keys'[j]? =
      if j < pos then keys[j]? else if j = pos then some b else keys[j - 1]?)
    (hchildren : ∀ j ≤ count, children'[j]? =
      if j < pos then children[j]? else if j = pos then some (some p) else children[j - 1]?) :
    DenseRep capacity' keys' children' (count + 1) (Function.update f b (some p)) where
  keys_length := hkl
  children_length := hcl
  count_le := hcount
  sorted := by
    -- Below the new byte nothing has moved, above it everything by one.
    intro i j x y hij hj hx hy
    rw [hkeys i (by omega)] at hx
    rw [hkeys j (by omega)] at hy
    have hle := hpos.le
    by_cases hi : i < pos
    · rw [if_pos hi] at hx
      by_cases hjlt : j < pos
      · rw [if_pos hjlt] at hy
        exact h.sorted hij (by omega) hx hy
      · rw [if_neg hjlt] at hy
        by_cases hjeq : j = pos
        · rw [if_pos hjeq, Option.some_inj] at hy
          subst hy
          exact hpos.below hi hx
        · rw [if_neg hjeq] at hy
          exact h.sorted (by omega) (by omega) hx hy
    · rw [if_neg hi] at hx
      rw [if_neg (by omega), if_neg (by omega)] at hy
      by_cases hieq : i = pos
      · rw [if_pos hieq, Option.some_inj] at hx
        subst hx
        exact hpos.above (by omega) (by omega) hy
      · rw [if_neg hieq] at hx
        exact h.sorted (by omega) (by omega) hx hy
  defined := by
    intro i hi
    rw [hchildren i (by omega)]
    have hle := hpos.le
    by_cases hlt : i < pos
    · rw [if_pos hlt]
      exact h.defined (by omega)
    · rw [if_neg hlt]
      by_cases heq : i = pos
      · rw [if_pos heq]
        exact ⟨p, rfl⟩
      · rw [if_neg heq]
        exact h.defined (by omega)
  spec := by
    intro x q
    have hle := hpos.le
    -- The new byte is found at its place, any other one where it has moved to.
    by_cases hx : x = b
    · subst hx
      rw [Function.update_self]
      constructor
      · intro hq
        refine ⟨pos, by omega, ?_, ?_⟩
        · rw [hkeys pos hle, if_neg (by omega), if_pos rfl]
        · rw [hchildren pos hle, if_neg (by omega), if_pos rfl, hq]
      · rintro ⟨i, hi, hxi, hqi⟩
        rw [hkeys i (by omega)] at hxi
        rw [hchildren i (by omega)] at hqi
        by_cases hlt : i < pos
        · rw [if_pos hlt] at hxi
          exact absurd hxi ((h.eq_none_iff x).mp hb i (by omega))
        · rw [if_neg hlt] at hxi hqi
          by_cases heq : i = pos
          · rw [if_pos heq] at hqi
            exact Option.some_inj.mp hqi
          · rw [if_neg heq] at hxi
            exact absurd hxi ((h.eq_none_iff x).mp hb _ (by omega))
    · rw [Function.update_of_ne hx, h.spec]
      constructor
      · rintro ⟨i, hi, hxi, hqi⟩
        by_cases hlt : i < pos
        · refine ⟨i, by omega, ?_, ?_⟩
          · rw [hkeys i (by omega), if_pos hlt, hxi]
          · rw [hchildren i (by omega), if_pos hlt, hqi]
        · refine ⟨i + 1, by omega, ?_, ?_⟩
          · rw [hkeys _ (by omega), if_neg (by omega), if_neg (by omega), Nat.add_sub_cancel, hxi]
          · rw [hchildren _ (by omega), if_neg (by omega), if_neg (by omega), Nat.add_sub_cancel,
              hqi]
      · rintro ⟨i, hi, hxi, hqi⟩
        rw [hkeys i (by omega)] at hxi
        rw [hchildren i (by omega)] at hqi
        by_cases hlt : i < pos
        · rw [if_pos hlt] at hxi hqi
          exact ⟨i, by omega, hxi, hqi⟩
        · rw [if_neg hlt] at hxi hqi
          by_cases heq : i = pos
          · rw [if_pos heq, Option.some_inj] at hxi
            exact absurd hxi.symm hx
          · rw [if_neg heq] at hxi hqi
            exact ⟨i - 1, by omega, hxi, hqi⟩

/-- Closing the gap at a key removes its binding. -/
theorem erase (h : DenseRep capacity keys children count f) {b : UInt8} {ci : Nat}
    (hci : ci < count) (hb : keys[ci]? = some b) {capacity' : Nat} {keys' : List UInt8}
    {children' : List (Option P)} (hkl : keys'.length = capacity')
    (hcl : children'.length = capacity') (hcount : count - 1 ≤ capacity')
    (hkeys : ∀ j < count - 1, keys'[j]? = if j < ci then keys[j]? else keys[j + 1]?)
    (hchildren : ∀ j < count - 1, children'[j]? =
      if j < ci then children[j]? else children[j + 1]?) :
    DenseRep capacity' keys' children' (count - 1) (Function.update f b none) where
  keys_length := hkl
  children_length := hcl
  count_le := hcount
  sorted := by
    intro i j x y hij hj hx hy
    rw [hkeys i (by omega)] at hx
    rw [hkeys j (by omega)] at hy
    -- The entries above the removed one have moved down by one.
    by_cases hi : i < ci
    · rw [if_pos hi] at hx
      by_cases hj : j < ci
      · rw [if_pos hj] at hy
        exact h.sorted hij (by omega) hx hy
      · rw [if_neg hj] at hy
        exact h.sorted (by omega) (by omega) hx hy
    · rw [if_neg hi] at hx
      rw [if_neg (by omega)] at hy
      exact h.sorted (by omega) (by omega) hx hy
  defined := by
    intro i hi
    rw [hchildren i hi]
    by_cases hlt : i < ci
    · rw [if_pos hlt]
      exact h.defined (by omega)
    · rw [if_neg hlt]
      exact h.defined (by omega)
  spec := by
    intro x q
    -- The removed byte is not found any more: no two places hold it.
    by_cases hx : x = b
    · subst hx
      rw [Function.update_self]
      constructor
      · intro hq
        cases hq
      · rintro ⟨i, hi, hxi, -⟩
        rw [hkeys i hi] at hxi
        by_cases hlt : i < ci
        · rw [if_pos hlt] at hxi
          have := h.index_inj (by omega) hci hxi hb
          omega
        · rw [if_neg hlt] at hxi
          have := h.index_inj (by omega) hci hxi hb
          omega
    · rw [Function.update_of_ne hx, h.spec]
      constructor
      · rintro ⟨i, hi, hxi, hqi⟩
        have hne : i ≠ ci := by
          rintro rfl
          rw [hb, Option.some_inj] at hxi
          exact hx hxi.symm
        by_cases hlt : i < ci
        · refine ⟨i, by omega, ?_, ?_⟩
          · rw [hkeys i (by omega), if_pos hlt, hxi]
          · rw [hchildren i (by omega), if_pos hlt, hqi]
        · refine ⟨i - 1, by omega, ?_, ?_⟩
          · rw [hkeys _ (by omega), if_neg (by omega), Nat.sub_add_cancel (by omega), hxi]
          · rw [hchildren _ (by omega), if_neg (by omega), Nat.sub_add_cancel (by omega), hqi]
      · rintro ⟨i, hi, hxi, hqi⟩
        rw [hkeys i hi] at hxi
        rw [hchildren i hi] at hqi
        by_cases hlt : i < ci
        · rw [if_pos hlt] at hxi hqi
          exact ⟨i, by omega, hxi, hqi⟩
        · rw [if_neg hlt] at hxi hqi
          exact ⟨i + 1, by omega, hxi, hqi⟩

/-- A store into a used slot of the pointer array. -/
theorem set (h : DenseRep capacity keys children count f) {b : UInt8} {i : Nat} (hi : i < count)
    (hb : keys[i]? = some b) (p : P) :
    DenseRep capacity keys (children.set i (some p)) count (Function.update f b (some p)) where
  keys_length := h.keys_length
  children_length := by rw [List.length_set, h.children_length]
  count_le := h.count_le
  sorted := h.sorted
  defined := by
    intro j hj
    rw [List.getElem?_set]
    split
    · rw [if_pos (by rw [h.children_length]; have := h.count_le; omega)]
      exact ⟨p, rfl⟩
    · exact h.defined hj
  spec := by
    intro x q
    have hlt : i < children.length := by
      rw [h.children_length]
      exact Nat.lt_of_lt_of_le hi h.count_le
    by_cases hx : x = b
    · subst hx
      rw [Function.update_self]
      constructor
      · intro hq
        exact ⟨i, hi, hb, by rw [List.getElem?_set_self hlt, hq]⟩
      · rintro ⟨j, hj, hxj, hqj⟩
        have := h.index_inj hj hi hxj hb
        subst this
        rw [List.getElem?_set_self hlt] at hqj
        exact Option.some_inj.mp hqj
    · rw [Function.update_of_ne hx, h.spec]
      constructor
      · rintro ⟨j, hj, hxj, hqj⟩
        have hne : i ≠ j := by
          rintro rfl
          rw [hb, Option.some_inj] at hxj
          exact hx hxj.symm
        exact ⟨j, hj, hxj, by rw [List.getElem?_set_ne hne, hqj]⟩
      · rintro ⟨j, hj, hxj, hqj⟩
        have hne : i ≠ j := by
          rintro rfl
          rw [hb, Option.some_inj] at hxj
          exact hx hxj.symm
        rw [List.getElem?_set_ne hne] at hqj
        exact ⟨j, hj, hxj, hqj⟩

/-! ## 1. The searches of the two node types -/

theorem findKey_eq_some_iff (h : DenseRep capacity keys children count f) (b : UInt8) (i : Nat) :
    INode.findKey keys count b = some i ↔ i < count ∧ keys[i]? = some b := by
  have hlen : (keys.take count).length = count := by
    rw [List.length_take, h.keys_length]
    exact min_eq_left h.count_le
  rw [INode.findKey, List.findIdx?_eq_some_iff_getElem]
  constructor
  · rintro ⟨hi, hb, -⟩
    rw [hlen] at hi
    refine ⟨hi, ?_⟩
    rw [List.getElem_take, decide_eq_true_eq] at hb
    rw [← hb, List.getElem?_eq_getElem]
  · rintro ⟨hi, hb⟩
    obtain ⟨hlt, hb'⟩ := List.getElem?_eq_some_iff.mp hb
    refine ⟨by omega, ?_, ?_⟩
    · rw [List.getElem_take, decide_eq_true_eq]
      exact hb'
    · intro j hj
      rw [List.getElem_take, decide_eq_true_eq]
      intro hbj
      have := h.sorted hj hi (List.getElem?_eq_getElem (by omega)) hb
      rw [hbj] at this
      exact lt_irrefl b this

theorem findKey_eq_none_iff (h : DenseRep capacity keys children count f) (b : UInt8) :
    INode.findKey keys count b = none ↔ f b = none := by
  rw [h.eq_none_iff, Option.eq_none_iff_forall_ne_some]
  constructor
  · intro hall i hi hb
    exact hall i ((h.findKey_eq_some_iff b i).mpr ⟨hi, hb⟩)
  · intro hall i hfind
    obtain ⟨hi, hb⟩ := (h.findKey_eq_some_iff b i).mp hfind
    exact hall i hi hb

/-- The number of keys at or below an absent byte is its position. -/
theorem getInsertPos_spec (h : DenseRep capacity keys children count f) {b : UInt8}
    (hb : f b = none) : InsertPos keys count b (INode.getInsertPos keys count b) := by
  have habsent := (h.eq_none_iff b).mp hb
  have hlen : (keys.take count).length = count := by
    rw [List.length_take, h.keys_length]
    exact min_eq_left h.count_le
  have hcount : INode.getInsertPos keys count b ≤ count := by
    rw [INode.getInsertPos]
    exact Nat.le_trans List.countP_le_length (by rw [hlen])
  have hkey := le_iff_lt_countP h.pairwise_lt b
  refine ⟨hcount, ?_, ?_⟩
  · intro i a hi ha
    obtain ⟨hlt, rfl⟩ := List.getElem?_eq_some_iff.mp ha
    have hle := (hkey i (by omega)).mpr hi
    rw [List.getElem_take] at hle
    refine lt_of_le_of_ne hle fun heq => habsent i (by omega) ?_
    rw [ha, heq]
  · intro i a hge hi ha
    obtain ⟨hlt, rfl⟩ := List.getElem?_eq_some_iff.mp ha
    by_contra hnot
    have hle := (hkey i (by omega)).not.mpr (Nat.not_lt.mpr hge)
    rw [List.getElem_take] at hle
    exact hle (le_of_not_gt hnot)

/-- The first key at or above an absent byte is its position. -/
theorem getSortedKeyArrayInsertPosition_spec (h : DenseRep capacity keys children count f)
    {b : UInt8} (hb : f b = none) :
    InsertPos keys count b (INode.getSortedKeyArrayInsertPosition keys count b) := by
  have habsent := (h.eq_none_iff b).mp hb
  have hlen : (keys.take count).length = count := by
    rw [List.length_take, h.keys_length]
    exact min_eq_left h.count_le
  refine ⟨?_, ?_, ?_⟩
  · rw [INode.getSortedKeyArrayInsertPosition]
    exact Nat.le_trans List.findIdx_le_length (by rw [hlen])
  · intro i a hi ha
    obtain ⟨hlt, rfl⟩ := List.getElem?_eq_some_iff.mp ha
    have hnot := List.not_of_lt_findIdx hi
    rw [List.getElem_take] at hnot
    simpa using hnot
  · intro i a hge hi ha
    rw [INode.getSortedKeyArrayInsertPosition] at hge
    have hlt : (keys.take count).findIdx (b ≤ ·) < (keys.take count).length := by omega
    have hle := List.findIdx_getElem (w := hlt)
    rw [List.getElem_take, decide_eq_true_eq] at hle
    rcases Nat.lt_or_eq_of_le hge with hgt | heq
    · refine lt_of_le_of_lt hle (h.sorted hgt hi ?_ ha)
      rw [List.getElem?_eq_getElem]
    · have hle' : b ≤ a := by
        have hget : keys[List.findIdx (fun x => decide (b ≤ x)) (keys.take count)]? = some a := by
          rw [heq, ha]
        obtain ⟨_, hget⟩ := List.getElem?_eq_some_iff.mp hget
        rw [← hget]
        exact hle
      refine lt_of_le_of_ne hle' fun hba => habsent i hi ?_
      rw [ha, hba]

end DenseRep

end Unodb
