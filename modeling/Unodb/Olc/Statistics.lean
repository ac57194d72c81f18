import Unodb.Db.Memory
import Unodb.Olc.Calls

/-!
# Exact statistics

After every call of a run, what `get_node_counts` and `get_current_memory_use` return is what can be
counted in the tree behind the root pointer.
-/

open Arrays Finset

namespace Unodb

/-- Node counters and a memory use that are those of the tree behind the root pointer, and zero if
    there is none. -/
structure Stats.Exact (stats : Stats) (sizes : Sizes) (t : Tree) (fuel : Nat) : Prop where
  nodeCounts : ∀ type,
    stats.nodeCounts type = (t.root.map (t.weight (Body.countType type) fuel)).getD 0
  currentMemoryUse : stats.currentMemoryUse = (t.root.map (t.weight sizes.of fuel)).getD 0
  of_empty : t.root = none → (∀ type, stats.nodeCounts type = 0) ∧ stats.currentMemoryUse = 0

variable {κ E : Type} [LawfulArtKey κ] {K : Set (List UInt8)} {path : NodePtr → List UInt8}
  {lost : NodeType → Nat} {s : Db dbSizes} {encode : E → κ}

/-! ## 1. `db` -/

namespace Db

/-- The statistics of a `db` are exact. -/
def StatsExact (s : Db dbSizes) : Prop := s.stats.Exact dbSizes s.tree s.next

/-- Statistics that agree with the nodes in memory agree with the tree. -/
theorem Inv.exact_of_accounted (h : s.Inv K path lost) {sizes : Sizes} {stats : Stats}
    (hacc : Accounted sizes s.tree s.next stats) : stats.Exact sizes s.tree s.next := by
  have hcounts : ∀ type, stats.nodeCounts type =
      (s.tree.root.map (s.tree.weight (Body.countType type) s.next)).getD 0 := by
    intro type
    rw [hacc.counts, h.total_eq]
  have hmemory : stats.currentMemoryUse =
      (s.tree.root.map (s.tree.weight sizes.of s.next)).getD 0 := by
    rw [hacc.memory, h.total_eq]
  refine ⟨hcounts, hmemory, fun hroot => ?_⟩
  rw [hroot] at hcounts hmemory
  exact ⟨hcounts, hmemory⟩

theorem Inv.exact (h : s.Inv K path lost) : s.StatsExact :=
  h.exact_of_accounted h.accounted

/-- A call that returns or throws keeps the invariant, whatever the keys are. -/
theorem Inv.step_completes (h : s.Inv K path lost) (hfree : Radix.PrefixFree K) {c : Call E}
    (hc : c.KeyIn {k | view encode k ∈ K}) (hcompletes : OlcDb.Completes (step encode c s).1) :
    ∃ path' lost', (step encode c s).2.Inv K path' lost' := by
  cases c with
  | insert k v =>
    simp only [step, call] at hcompletes ⊢
    rcases insertInternal_cases (v := v) h hfree hc with hresult | ⟨-, -, s', hstuck⟩
    · generalize hrun : insertInternal (encode k) v s = result at hresult
      cases hresult with
      | «exists» _ =>
        rw [DbM.bind_ok hrun]
        exact ⟨path, lost, h⟩
      | refused _ _ =>
        rw [DbM.bind_error hrun]
        exact ⟨path, lost, h⟩
      | @added s' path' _ _ hinv _ =>
        rw [DbM.bind_ok hrun]
        exact ⟨path', lost, hinv⟩
    · rw [DbM.bind_error hstuck] at hcompletes
      cases hcompletes
  | remove k =>
    have hstays := h.tree.stays hfree hc
    simp only [step, call]
    by_cases hjoin : s.tree.JoinsFit (view encode k)
    · have hresult := removeInternal_spec h hstays hjoin
      generalize hrun : removeInternal (encode k) s = result at hresult
      cases hresult with
      | absent _ =>
        rw [DbM.bind_ok hrun]
        exact ⟨path, lost, h⟩
      | @removed s' path' _ _ hinv _ =>
        rw [DbM.bind_ok hrun]
        exact ⟨path', lost, hinv⟩
    · rw [DbM.bind_error (removeInternal_stuck h hstays hjoin)]
      exact ⟨path, lost, h⟩
  | get k =>
    obtain ⟨r, hr, -⟩ := getInternal_spec (k := encode k) h.tree (h.tree.stays hfree hc)
    simp only [step, call]
    rw [DbM.bind_get, DbM.bind_lift hr]
    exact ⟨path, lost, h⟩
  | empty => exact ⟨path, lost, h⟩
  | clear =>
    obtain ⟨s', hclear, -, hinv⟩ := h.clear_spec
    simp only [step, call]
    rw [DbM.bind_ok hclear]
    exact ⟨path, _, hinv⟩

theorem Inv.run_completes (h : s.Inv K path lost) (hfree : Radix.PrefixFree K)
    {calls : List (Call E)} (hkeys : ∀ c ∈ calls, c.KeyIn {k | view encode k ∈ K})
    (hcompletes : ∀ r ∈ (run encode calls s).1, OlcDb.Completes r) :
    ∃ path' lost', (run encode calls s).2.Inv K path' lost' := by
  induction calls generalizing s path lost with
  | nil => exact ⟨path, lost, h⟩
  | cons c cs ih =>
    rw [run_cons] at hcompletes ⊢
    obtain ⟨path', lost', h'⟩ := h.step_completes hfree (hkeys c List.mem_cons_self)
      (hcompletes _ List.mem_cons_self)
    exact ih h' (fun c' hc' => hkeys c' (List.mem_cons_of_mem c hc'))
      fun r hr => hcompletes r (List.mem_cons_of_mem _ hr)

/-- After `clear` the tree is empty. -/
theorem Inv.root_clear (h : s.Inv K path lost) (encode : E → κ) :
    (step encode .clear s).2.tree.root = none := by
  obtain ⟨s', hclear, hunbound, hinv⟩ := h.clear_spec
  simp only [step, call]
  rw [DbM.bind_ok hclear]
  show s'.tree.root = none
  cases hroot : s'.tree.root with
  | none => rfl
  | some root =>
    have hread : s'.tree.graph.read .root = some root := hroot
    obtain ⟨k, ⟨v, hbinds⟩, -⟩ := hinv.tree.leaf_below hread
    exact absurd hbinds (hunbound k v)

theorem run_concat (encode : E → κ) (calls : List (Call E)) (c : Call E) (s : Db dbSizes) :
    run encode (calls ++ [c]) s = ((run encode calls s).1 ++ [(step encode c (run encode calls s).2).1],
      (step encode c (run encode calls s).2).2) := by
  induction calls generalizing s with
  | nil => rfl
  | cons c' cs ih =>
    rw [List.cons_append, run_cons, run_cons, ih]
    rfl

/-- A run that ends with `clear` leaves the tree empty. -/
theorem Inv.run_clear (h : s.Inv K path lost) (hfree : Radix.PrefixFree K) {calls : List (Call E)}
    (hkeys : ∀ c ∈ calls, c.KeyIn {k | view encode k ∈ K})
    (hcompletes : ∀ r ∈ (run encode calls s).1, OlcDb.Completes r)
    (hlast : calls.getLast? = some .clear) : (run encode calls s).2.tree.root = none := by
  obtain ⟨before, rfl⟩ := List.getLast?_eq_some_iff.mp hlast
  rw [run_concat] at hcompletes ⊢
  obtain ⟨path', lost', h'⟩ := h.run_completes hfree
    (fun c hc => hkeys c (List.mem_append_left _ hc))
    fun r hr => hcompletes r (List.mem_append_left _ hr)
  exact h'.root_clear encode

/-- No call of a `db<std::uint64_t>` fails an assertion. -/
theorem Inv.step_u64_completes (h : s.Inv u64Views path lost) (c : Call (BitVec 64)) :
    OlcDb.Completes (step U64Key.make c s).1 := by
  cases hstep : (step U64Key.make c s).1 with
  | ok r => trivial
  | error e =>
    obtain ⟨what, -, rfl, -⟩ := h.step_error_u64 hstep
    rfl

theorem Inv.run_u64_completes (h : s.Inv u64Views path lost) (calls : List (Call (BitVec 64))) :
    ∀ r ∈ (run U64Key.make calls s).1, OlcDb.Completes r := by
  induction calls generalizing s path lost with
  | nil =>
    intro r hr
    cases hr
  | cons c cs ih =>
    have hfirst := h.step_u64_completes c
    obtain ⟨path', lost', h'⟩ := h.step_completes u64Views_prefixFree
      (keyIn_u64 view_mem_u64Views c) hfirst
    rw [run_cons]
    intro r hr
    rcases List.mem_cons.mp hr with rfl | hr
    · exact hfirst
    · exact ih h' r hr

end Db

/-! ## 2. `olc_db` -/

namespace OlcDb

variable {o o' : OlcDb sizes} {slot : Radix.Slot NodePtr UInt8} {p : NodePtr}

/-- The statistics of an `olc_db` are exact. -/
def StatsExact (o : OlcDb sizes) : Prop := o.stats.Exact sizes o.mem o.next

/-- The nodes that can be reached are those of the mirrored `db`. -/
theorem Stores.weight_eq (ho : o.Stores s) (h : s.tree.Inv K path) (w : Body → Nat) {fuel : Nat}
    (hread : s.tree.graph.read slot = some p) : o.mem.weight w fuel p = s.tree.weight w fuel p := by
  induction fuel generalizing slot p with
  | zero => rfl
  | succ fuel ih =>
    by_cases htype : p.type = .leaf
    · obtain ⟨k, v, hp, -⟩ := h.leaf_of_tag hread htype
      simp only [Tree.weight, hp, ho.deref hp]
    · obtain ⟨n, hp, -⟩ := h.inode_of_tag hread htype
      simp only [Tree.weight, hp, ho.deref hp]
      refine congrArg (w (.inode n) + ·) (sum_congr rfl fun b _ => ?_)
      cases hb : n.child b with
      | none => rfl
      | some q => exact ih (by rw [Tree.graph_read_child hp, hb])

theorem Mirrors.exact (hm : o.Mirrors s) (h : s.Inv K path lost) :
    o.StatsExact := by
  have hexact := h.exact_of_accounted hm.accounted
  have hweight : ∀ w, (o.mem.root.map (o.mem.weight w o.next)).getD 0 =
      (s.tree.root.map (s.tree.weight w s.next)).getD 0 := by
    intro w
    rw [hm.quiet.root_eq, hm.next]
    cases hroot : s.tree.root with
    | none => rfl
    | some root =>
      have hread : s.tree.graph.read .root = some root := hroot
      exact hm.toStores.weight_eq h.tree w hread
  constructor
  · intro type
    rw [hweight, hexact.nodeCounts]
  · rw [hweight, hexact.currentMemoryUse]
  · rw [hm.quiet.root_eq]
    exact hexact.of_empty

/-- No call of an `olc_db<std::uint64_t>` fails an assertion, also when memory runs out. -/
theorem Performs.completes_u64 {e : Call (BitVec 64) × Except Fault Output}
    (hperforms : Performs U64Key.make o e o') (hm : o.Mirrors s) (h : s.Inv Db.u64Views path lost) :
    Completes e.2 := by
  obtain ⟨me, rounds, choices, hexec⟩ := hperforms
  obtain ⟨r, o₁, hexec₁, -, hfails⟩ := (call_ends (P := fun _ => True) me rounds U64Key.make hm h
    Db.u64Views_prefixFree (Db.keyIn_u64 Db.view_mem_u64Views e.1)).exec choices fun _ => trivial
  obtain ⟨rfl, rfl⟩ := Prod.mk.inj (Option.some_inj.mp (hexec₁.symm.trans hexec))
  cases hr : e.2 with
  | ok a => trivial
  | error fault =>
    rcases hfails fault hr with ⟨-, rfl, -⟩ | ⟨-, -, hexc⟩ | ⟨rfl, hstep⟩
    · rfl
    · exact hexc
    · have := h.step_u64_completes e.1
      rw [hstep] at this
      cases this

/-- After `clear` the tree is empty. -/
theorem Performs.root_clear {encode : E → κ} {r : Except Fault Output}
    (hperforms : Performs encode o (.clear, r) o') (hm : o.Mirrors s) (h : s.Inv K path lost) :
    o'.mem.root = none := by
  obtain ⟨me, rounds, choices, hexec⟩ := hperforms
  obtain ⟨s', hclear, -, hinv⟩ := h.clear_spec
  obtain ⟨o₁, hyields, hm'⟩ := clear_yields hm h hclear
  have hroot : s'.tree.root = none := by
    have hempty := h.root_clear encode
    rw [Db.step, Db.call, DbM.bind_ok hclear] at hempty
    exact hempty
  have hends : (call me (rounds + 1) encode .clear).Ends (fun _ => True)
      (fun _ o' => o'.mem.root = none) (fun _ _ => False) o :=
    .step hyields (hm'.quiet.root_eq.trans hroot)
  obtain ⟨r₁, o₁, hexec₁, hok, hfails⟩ := hends.exec choices fun _ => trivial
  obtain ⟨rfl, rfl⟩ := Prod.mk.inj (Option.some_inj.mp (hexec₁.symm.trans hexec))
  cases hr : r₁ with
  | ok a => exact hok a hr
  | error fault => exact (hfails fault hr).elim

/-- A run that ends with `clear` leaves the tree empty. -/
theorem run_clear {encode : E → κ} (hm : o.Mirrors s) (h : s.Inv K path lost)
    (hfree : Radix.PrefixFree K) {events : List (Call E × Except Fault Output)}
    (hrun : Run (Performs encode) o events o')
    (hkeys : ∀ e ∈ events, e.1.KeyIn {k | Db.view encode k ∈ K})
    (hcompletes : ∀ e ∈ events, Completes e.2) (hlast : events.getLast?.map (·.1) = some .clear) :
    o'.mem.root = none := by
  obtain ⟨⟨c, r⟩, hlast, rfl⟩ := Option.map_eq_some_iff.mp hlast
  obtain ⟨before, rfl⟩ := List.getLast?_eq_some_iff.mp hlast
  obtain ⟨o₁, hbefore, hclear⟩ := hrun.exists_append
  obtain ⟨s₁, path₁, lost₁, hm₁, h₁⟩ := run_mirrors hfree hm h hbefore
    (fun e he => hkeys e (List.mem_append_left _ he))
    fun e he => hcompletes e (List.mem_append_left _ he)
  cases hclear with
  | cons hstep hrest =>
    cases hrest
    exact hstep.root_clear hm₁ h₁

theorem run_u64_mirrors (hm : o.Mirrors s) (h : s.Inv Db.u64Views path lost)
    {events : List (Call (BitVec 64) × Except Fault Output)}
    (hrun : Run (Performs U64Key.make) o events o') :
    (∀ e ∈ events, Completes e.2) ∧
      ∃ (s' : Db dbSizes) (path' : _) (lost' : _), o'.Mirrors s' ∧ s'.Inv Db.u64Views path' lost' := by
  induction hrun generalizing s path lost with
  | nil =>
    refine ⟨fun e he => ?_, s, path, lost, hm, h⟩
    cases he
  | @cons o o₁ _ e events hstep _ ih =>
    have hfirst := hstep.completes_u64 hm h
    obtain ⟨s₁, path₁, lost₁, hm₁, h₁⟩ := hstep.mirrors hm h Db.u64Views_prefixFree
      (Db.keyIn_u64 Db.view_mem_u64Views e.1) hfirst
    obtain ⟨hrest, hmirrors⟩ := ih hm₁ h₁
    exact ⟨List.forall_mem_cons.mpr ⟨hfirst, hrest⟩, hmirrors⟩

end OlcDb

/-! ## 3. Runs -/

theorem Db.exact_of_run_u64 (calls : List (Call (BitVec 64))) :
    (∀ r ∈ (Db.run U64Key.make calls (Db.empty dbSizes)).1, OlcDb.Completes r) ∧
      (Db.run U64Key.make calls (Db.empty dbSizes)).2.StatsExact := by
  have hempty : (Db.empty dbSizes).Inv Db.u64Views (fun _ => []) fun _ => 0 := Db.Inv.empty _
  obtain ⟨-, ⟨path, lost, h⟩, -⟩ := Db.run_u64_spec calls
  exact ⟨hempty.run_u64_completes calls, h.exact⟩

theorem OlcDb.exact_of_run_u64 {events : List (Call (BitVec 64) × Except Fault Output)}
    {o : OlcDb sizes} (hrun : Run (OlcDb.Performs U64Key.make) (.empty sizes) events o) :
    (∀ e ∈ events, OlcDb.Completes e.2) ∧ o.StatsExact := by
  have hempty : (Db.empty sizes).Inv Db.u64Views (fun _ => []) fun _ => 0 := Db.Inv.empty _
  obtain ⟨hcompletes, s, path, lost, hm, h⟩ := OlcDb.run_u64_mirrors OlcDb.empty_mirrors hempty hrun
  exact ⟨hcompletes, hm.exact h⟩

/-- After every run on 64-bit keys, of a `db` or of an `olc_db` that one thread uses, the statistics
    are exact, whatever the sizes of the node classes are, and no call fails an assertion on them; in
    the `olc_db` any allocation may have failed. -/
theorem stats_exact_u64 (sizes : Sizes) :
    (∀ calls : List (Call (BitVec 64)),
      (∀ r ∈ (Db.run U64Key.make calls (Db.empty sizes)).1, OlcDb.Completes r) ∧
        (Db.run U64Key.make calls (Db.empty sizes)).2.StatsExact) ∧
    ∀ (events : List (Call (BitVec 64) × Except Fault Output)) (o : OlcDb sizes),
      Run (OlcDb.Performs U64Key.make) (.empty sizes) events o →
      (∀ e ∈ events, OlcDb.Completes e.2) ∧ o.StatsExact :=
  ⟨Db.exact_of_run_u64, fun _ _ hrun => OlcDb.exact_of_run_u64 hrun⟩

theorem Db.exact_of_run (hfree : Radix.PrefixFree K) {calls : List (Call E)}
    (hkeys : ∀ c ∈ calls, c.KeyIn {k | Db.view encode k ∈ K})
    (hcompletes : ∀ r ∈ (Db.run encode calls (Db.empty dbSizes)).1, OlcDb.Completes r) :
    (Db.run encode calls (Db.empty dbSizes)).2.StatsExact := by
  obtain ⟨path, lost, h⟩ := (Db.Inv.empty fun _ => []).run_completes hfree hkeys hcompletes
  exact h.exact

theorem OlcDb.Used.exact {o : OlcDb sizes} (hused : o.Used encode K) (hfree : Radix.PrefixFree K) :
    o.StatsExact := by
  obtain ⟨s, path, lost, hm, h⟩ := hused.mirrors hfree
  exact hm.exact h

/-- The same for the keys of a prefix-free set, after every run whose calls all return or throw an
    exception. -/
theorem stats_exact_prefixFree (sizes : Sizes) (hfree : Radix.PrefixFree K) :
    (∀ calls : List (Call E), (∀ c ∈ calls, c.KeyIn {k | Db.view encode k ∈ K}) →
      (∀ r ∈ (Db.run encode calls (Db.empty sizes)).1, OlcDb.Completes r) →
      (Db.run encode calls (Db.empty sizes)).2.StatsExact) ∧
    ∀ o : OlcDb sizes, o.Used encode K → o.StatsExact :=
  ⟨fun _ => Db.exact_of_run hfree, fun _ hused => hused.exact hfree⟩

/-- After every run whose calls complete the statistics are exact, and after `clear` the tree is
    empty, for 64-bit keys, where every call completes, and for the keys of a prefix-free set. -/
theorem stats_exact_of_run (sizes : Sizes) :
    (∀ calls : List (Call (BitVec 64)),
      (∀ r ∈ (Db.run U64Key.make calls (Db.empty sizes)).1, OlcDb.Completes r) ∧
      (Db.run U64Key.make calls (Db.empty sizes)).2.StatsExact ∧
      (calls.getLast? = some .clear →
        (Db.run U64Key.make calls (Db.empty sizes)).2.tree.root = none)) ∧
    (∀ (events : List (Call (BitVec 64) × Except Fault Output)) (o : OlcDb sizes),
      Run (OlcDb.Performs U64Key.make) (.empty sizes) events o →
      (∀ e ∈ events, OlcDb.Completes e.2) ∧ o.StatsExact ∧
      (events.getLast?.map (·.1) = some .clear → o.mem.root = none)) ∧
    ∀ K : Set (List UInt8), Radix.PrefixFree K →
      (∀ calls : List (Call (List UInt8)), (∀ c ∈ calls, c.KeyIn K) →
        (∀ r ∈ (Db.run KeyView.mk calls (Db.empty sizes)).1, OlcDb.Completes r) →
        (Db.run KeyView.mk calls (Db.empty sizes)).2.StatsExact ∧
        (calls.getLast? = some .clear →
          (Db.run KeyView.mk calls (Db.empty sizes)).2.tree.root = none)) ∧
      ∀ (events : List (Call (List UInt8) × Except Fault Output)) (o : OlcDb sizes),
        Run (OlcDb.Performs KeyView.mk) (.empty sizes) events o →
        (∀ e ∈ events, e.1.KeyIn K ∧ OlcDb.Completes e.2) →
        o.StatsExact ∧ (events.getLast?.map (·.1) = some .clear → o.mem.root = none) := by
  have hempty : ∀ K, (Db.empty sizes).Inv K (fun _ => []) fun _ => 0 := fun K => Db.Inv.empty _
  refine ⟨fun calls => ?_, fun events o hrun => ?_, fun K hfree => ⟨fun calls hkeys hcompletes => ?_,
    fun events o hrun hevents => ?_⟩⟩
  · obtain ⟨hcompletes, hexact⟩ := @Db.exact_of_run_u64 sizes calls
    exact ⟨hcompletes, hexact, (hempty Db.u64Views).run_clear Db.u64Views_prefixFree
      (fun c _ => Db.keyIn_u64 Db.view_mem_u64Views c) hcompletes⟩
  · obtain ⟨hcompletes, hexact⟩ := OlcDb.exact_of_run_u64 hrun
    exact ⟨hcompletes, hexact, OlcDb.run_clear OlcDb.empty_mirrors (hempty Db.u64Views)
      Db.u64Views_prefixFree hrun (fun e _ => Db.keyIn_u64 Db.view_mem_u64Views e.1) hcompletes⟩
  · exact ⟨Db.exact_of_run hfree hkeys hcompletes, (hempty K).run_clear hfree hkeys hcompletes⟩
  · have hused : o.Used KeyView.mk K := ⟨events, hrun, hevents⟩
    exact ⟨hused.exact hfree, OlcDb.run_clear OlcDb.empty_mirrors (hempty K) hfree hrun
      (fun e he => (hevents e he).1) fun e he => (hevents e he).2⟩

/-- Two leaves below an inner node, of which one is removed again. -/
theorem stats_exact_prefixFree_removed :
    (Db.run KeyView.mk [.insert [1, 1] [7], .insert [1, 2] [], .remove [1, 1]]
      (Db.empty .db)).2.StatsExact := by
  have hfree : Radix.PrefixFree {[1, 1], [1, (2 : UInt8)]} := by simp [Radix.PrefixFree]
  have hresults : (Db.run KeyView.mk [.insert [1, 1] [7], .insert [1, 2] [], .remove [1, 1]]
      (Db.empty .db)).1 = [.ok (.bool true), .ok (.bool true), .ok (.bool true)] := by decide +kernel
  have hexact := (@stats_exact_prefixFree KeyView (List UInt8) _ _ KeyView.mk .db hfree).1
    [.insert [1, 1] [7], .insert [1, 2] [], .remove [1, 1]]
  refine hexact ?_ ?_
  · simp [Call.KeyIn, Db.view, ArtKey.getKeyView]
  · rw [hresults]
    simp [OlcDb.Completes]

end Unodb
