import Unodb.Db.Shape

/-!
# The counters of a run

What the statistics of a `db` say about the tree behind the root pointer.
-/

open Arrays Finset

namespace Unodb

/-- The weight that counts the inner nodes of a type or a larger one. -/
def Body.countFrom (type : NodeType) (body : Body) : Nat :=
  if body.type ≠ .leaf ∧ type.capacity ≤ body.type.capacity then 1 else 0

/-- The weight of all nodes in the tree behind the root pointer. -/
def Db.inTree (s : Db sizes) (w : Body → Nat) : Nat :=
  (s.tree.root.map (s.tree.weight w s.next)).getD 0

theorem Tree.total_add (t : Tree) (w w' : Body → Nat) (next : Nat) :
    t.total (fun body => w body + w' body) next = t.total w next + t.total w' next := by
  rw [total, total, total, ← sum_add_distrib]
  refine sum_congr rfl fun a _ => ?_
  cases t.heap a <;> rfl

namespace Db

variable {K : Set (List UInt8)} {path : NodePtr → List UInt8} {lost : NodeType → Nat} {s : Db sizes}

/-- The node counters count the nodes of the tree, by type and by the space they take. -/
theorem Inv.stats_eq (h : s.Inv K path lost) :
    (∀ type, s.stats.nodeCounts type = s.inTree (Body.countType type)) ∧
      s.stats.currentMemoryUse = s.inTree sizes.of :=
  ⟨fun type => (h.accounted.counts type).trans (h.total_eq _),
    h.accounted.memory.trans (h.total_eq _)⟩

theorem Inv.countFrom_eq (h : s.Inv K path lost) {type : NodeType} (htype : type ≠ .leaf) :
    s.stats.countFrom type = s.inTree (Body.countFrom type) := by
  have hcounts := h.accounted.counts
  unfold inTree
  rw [← h.total_eq]
  cases type with
  | leaf => exact absurd rfl htype
  | i4 | i16 | i48 | i256 =>
    simp only [Stats.countFrom, hcounts, ← Tree.total_add]
    refine congrArg (fun w => s.tree.total w s.next) (funext fun body => ?_)
    cases hbody : body.type <;>
      simp [Body.countType, Body.countFrom, hbody, NodeType.capacity]

/-- All stored keys have eight bytes, so they always branch often enough. -/
theorem Inv.spaced_u64 (h : s.Inv u64Views path lost) {X : Set (List UInt8)}
    (hX : ∀ x ∈ X, x ∈ s.tree.Keys ∨ x ∈ u64Views) : Radix.Spaced 7 X := by
  refine Radix.Spaced.of_length_le fun x hx => ?_
  rcases hX x hx with ⟨v, hv⟩ | hlen
  · obtain ⟨p, hp⟩ := Tree.binds_iff.mpr hv
    exact Nat.le_of_eq (h.tree.graph.key_mem hp)
  · exact Nat.le_of_eq hlen

/-- Every call but `clear` keeps what growing and shrinking add up to. -/
theorem Inv.step_u64 (h : s.Inv u64Views path lost) {c : Call (BitVec 64)} (hc : c ≠ .clear) :
    ∃ path', (step U64Key.make c s).2.Inv u64Views path' lost := by
  cases c with
  | insert k v =>
    have hresult := insertInternal_spec (v := v) h u64Views_prefixFree (view_mem_u64Views k)
      fun _ => h.tree.partsSoon u64Views_prefixFree (view_mem_u64Views k) (h.spaced_u64 fun x hx => by
        rcases hx with rfl | hx
        · exact .inr (view_mem_u64Views k)
        · exact .inl hx)
    simp only [step, call]
    generalize hrun : insertInternal (U64Key.make k) v s = result at hresult
    cases hresult with
    | «exists» _ =>
      rw [DbM.bind_ok hrun]
      exact ⟨path, h⟩
    | refused _ _ =>
      rw [DbM.bind_error hrun]
      exact ⟨path, h⟩
    | @added s' path' _ _ hinv _ =>
      rw [DbM.bind_ok hrun]
      exact ⟨path', hinv⟩
  | remove k =>
    have hresult := removeInternal_spec h (h.tree.stays u64Views_prefixFree (view_mem_u64Views k))
      (h.tree.joinsFit (h.spaced_u64 fun x hx => .inl hx.1))
    simp only [step, call]
    generalize hrun : removeInternal (U64Key.make k) s = result at hresult
    cases hresult with
    | absent _ =>
      rw [DbM.bind_ok hrun]
      exact ⟨path, h⟩
    | @removed s' path' _ _ hinv _ =>
      rw [DbM.bind_ok hrun]
      exact ⟨path', hinv⟩
  | get k =>
    obtain ⟨r, hr, -⟩ := getInternal_spec h.tree
      (h.tree.stays u64Views_prefixFree (view_mem_u64Views k))
    simp only [step, call]
    rw [DbM.bind_get, DbM.bind_lift hr]
    exact ⟨path, h⟩
  | empty => exact ⟨path, h⟩
  | clear => exact absurd rfl hc

theorem Inv.run_u64 {calls : List (Call (BitVec 64))} (hcalls : ∀ c ∈ calls, c ≠ .clear)
    (h : s.Inv u64Views path lost) :
    ∃ path', (run U64Key.make calls s).2.Inv u64Views path' lost := by
  induction calls generalizing s path with
  | nil => exact ⟨path, h⟩
  | cons c cs ih =>
    obtain ⟨path', h'⟩ := h.step_u64 (hcalls c List.mem_cons_self)
    rw [run_cons]
    exact ih (fun c' hc' => hcalls c' (List.mem_cons_of_mem c hc')) h'

end Db

/-- A map never answers with a failed assertion. -/
theorem RefMap.run_ne_assertion {E : Type} [DecidableEq E]
    (refusal : E → List UInt8 → Option String) (calls : List (Call E)) (m : RefMap E) :
    .error .assertion ∉ (RefMap.run refusal calls m).1 := by
  induction calls generalizing m with
  | nil => exact List.not_mem_nil
  | cons c cs ih =>
    rw [run_cons, List.mem_cons, not_or]
    refine ⟨?_, ih _⟩
    cases c with
    | insert k v =>
      simp only [step]
      split
      · simp
      · split <;> simp
    | remove | get | empty | clear => simp [step]

/-- Without `clear`, what has grown to a type and not shrunk from it again is in the tree, with
    that type or a larger one; no assertion on the counters fails. -/
theorem Db.run_u64_balanced (calls : List (Call (BitVec 64))) (hcalls : ∀ c ∈ calls, c ≠ .clear) :
    let s := (run U64Key.make calls (Db.empty sizes)).2
    (∀ type ≠ NodeType.leaf,
      (s.stats.growingInodeCounts type : Int) - s.stats.shrinkingInodeCounts type =
        s.inTree (Body.countFrom type)) ∧
    (s.stats.keyPrefixSplits ≠ 0 →
      s.stats.keyPrefixSplits < s.stats.growingInodeCounts .i4) ∧
    .error .assertion ∉ (run U64Key.make calls (Db.empty sizes)).1 := by
  have hempty : (Db.empty sizes).Inv u64Views (fun _ => []) fun _ => 0 := Inv.empty _
  obtain ⟨path, h⟩ := hempty.run_u64 hcalls
  refine ⟨?_, ?_, ?_⟩
  · intro type htype
    have hbalance := h.balanced.balance type htype
    rw [h.countFrom_eq htype] at hbalance
    omega
  · intro hne
    exact h.balanced.splits.resolve_left hne
  · rw [(run_u64_spec calls).1]
    exact RefMap.run_ne_assertion _ _ _

/-- Six insertions and a removal: the root has grown to an `N16` and shrunk back to an `N4`. -/
theorem Db.run_u64_balanced_shrunk :
    let s := (run U64Key.make [.insert 0 [], .insert 1 [], .insert 2 [], .insert 3 [],
      .insert 4 [], .remove 2] (Db.empty .db)).2
    (s.stats.growingInodeCounts .i16 : Int) - s.stats.shrinkingInodeCounts .i16 =
      s.inTree (Body.countFrom .i16) := by
  refine (run_u64_balanced _ ?_).1 .i16 (by decide)
  simp

end Unodb
