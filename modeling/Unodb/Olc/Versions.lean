import Unodb.Olc.Statistics

/-!
# The version law

A reader of an `olc_db` trusts what it has read of a node, or of the root pointer, as long as the
lock word stays the same.  So an update must change the lock word of whatever it changes, and leave
the nodes that it unlinks obsolete.  The collapse of a node with two children breaks this for the
inner node that is left over, and nothing else does.
-/

namespace Unodb

/-- The pointers that lead to a node of the tree. -/
inductive Tree.Reaches (t : Tree) : NodePtr → Prop where
  | root {p : NodePtr} : t.root = some p → t.Reaches p
  | child {p q : NodePtr} {n : INode NodePtr} {b : UInt8} :
      t.Reaches p → t.deref p = some (.inode n) → n.child b = some q → t.Reaches q

/-- A key that is stored is removed, or an assertion fails. -/
theorem Db.removeInternal_ne_false {κ : Type} [LawfulArtKey κ] {K : Set (List UInt8)}
    {path : NodePtr → List UInt8} {lost : NodeType → Nat} {s : Db dbSizes} {k : κ} {v : List UInt8}
    {p : NodePtr} (h : s.Inv K path lost) (hstays : s.tree.Stays path (ArtKey.getKeyView k))
    (hp : s.tree.deref p = some (.leaf (ArtKey.getKeyView k) v)) :
    Db.removeInternal k s ≠ .ok false s := by
  intro hx
  by_cases hjoin : s.tree.JoinsFit (ArtKey.getKeyView k)
  · have hresult := removeInternal_spec h hstays hjoin
    rw [hx] at hresult
    cases hresult with
    | absent hunbound => exact hunbound v ⟨p.addr, (Tree.deref_eq_some_iff.mp hp).1⟩
  · cases hx.symm.trans (removeInternal_stuck h hstays hjoin)

namespace OlcDb

/-- An update changes what a lock protects. -/
def Changes (o o' : OlcDb sizes) : Site → Prop
  | .root => o'.mem.root ≠ o.mem.root
  | .node a => o.mem.heap a ≠ none ∧ o'.mem.heap a ≠ o.mem.heap a

/-- A reader that checks a version from before the update finds that it must restart. -/
def Signals (o o' : OlcDb sizes) (l : Site) : Prop :=
  o'.lock l = .obsolete ∨
    ∃ version version', o.lock l = .free version ∧ o'.lock l = .free version' ∧ version < version'

/-- An update takes a node out of the tree. -/
def Unlinks (o o' : OlcDb sizes) (a : Nat) : Prop :=
  (∃ p, o.mem.Reaches p ∧ p.addr = a) ∧ ¬ ∃ p, o'.mem.Reaches p ∧ p.addr = a

/-- Every change of a node or of the root pointer is signalled by its lock. -/
structure VersionLaw (o o' : OlcDb sizes) : Prop where
  changed : ∀ l, Changes o o' l → Signals o o' l
  unlinked : ∀ a, Unlinks o o' a → o'.lock (.node a) = .obsolete

variable {κ E : Type} [LawfulArtKey κ] {K : Set (List UInt8)} {path : NodePtr → List UInt8}
  {lost : NodeType → Nat} {o o' : OlcDb sizes} {s s' : Db dbSizes} {slot : Radix.Slot NodePtr UInt8}
  {p : NodePtr} {bumped : List Site} {killed spared : List Nat} {encode : E → κ} {c : Call E} {l : Site}
  {P : Choice → Prop}

/-- The call removes a leaf whose only sibling is an inner node, at this address. -/
def LeavesOver (encode : E → κ) (o : OlcDb sizes) (c : Call E) (a : Nat) : Prop :=
  ∃ k, c = .remove k ∧ ∃ q : NodePtr, q.addr = a ∧ o.counted.LeftOver (Db.view encode k) q

/-- The calls that change single keys. -/
def IsUpdate : Call E → Prop
  | .insert _ _ | .remove _ => True
  | .get _ | .empty | .clear => False

/-! ## 1. What can be reached -/

theorem Mirrors.reaches_of_read (hm : o.Mirrors s) (h : s.tree.Inv K path)
    (hread : s.tree.graph.read slot = some p) : o.mem.Reaches p := by
  obtain ⟨len, hlen⟩ : ∃ len, (path p).length = len := ⟨_, rfl⟩
  induction len using Nat.strongRecOn generalizing slot p with
  | ind len ih =>
    cases slot with
    | root => exact .root (hm.quiet.root_eq.trans hread)
    | child a b =>
      obtain ⟨pre, c, hnode, -⟩ := Radix.read_child_iff.mp hread
      obtain ⟨n, ha⟩ := Tree.inode_of_inner hnode
      obtain ⟨up, hup⟩ := h.graph.pointed hnode
      have hlt := h.graph.path_lt_of_child hread
      rw [Tree.graph_read_child ha] at hread
      exact .child (ih _ (hlen ▸ hlt) hup rfl) (hm.deref ha) hread

theorem Mirrors.read_of_reaches (hm : o.Mirrors s) (h : s.tree.Inv K path)
    (hreaches : o.mem.Reaches p) : ∃ slot, s.tree.graph.read slot = some p := by
  induction hreaches with
  | root hroot => exact ⟨.root, hm.quiet.root_eq.symm.trans hroot⟩
  | @child p q n b _ hp hb ih =>
    obtain ⟨slot, hread⟩ := ih
    obtain ⟨body, hbody⟩ := h.body_of_read hread
    obtain rfl : body = .inode n := Option.some_inj.mp ((hm.deref hbody).symm.trans hp)
    exact ⟨.child p b, by rw [Tree.graph_read_child hbody, hb]⟩

/-- The tree consists of the nodes of the mirrored `db`. -/
theorem Mirrors.reaches_iff (hm : o.Mirrors s) (h : s.tree.Inv K path) (a : Nat) :
    (∃ p, o.mem.Reaches p ∧ p.addr = a) ↔ s.tree.heap a ≠ none := by
  constructor
  · rintro ⟨p, hreaches, rfl⟩
    obtain ⟨slot, hread⟩ := hm.read_of_reaches h hreaches
    obtain ⟨body, hbody⟩ := h.body_of_read hread
    rw [(Tree.deref_eq_some_iff.mp hbody).1]
    simp
  · intro ha
    obtain ⟨body, hbody⟩ := Option.ne_none_iff_exists'.mp ha
    have hderef : s.tree.deref ⟨a, body.type⟩ = some body := Tree.deref_eq_some_iff.mpr ⟨hbody, rfl⟩
    have hnode : s.tree.graph.node ⟨a, body.type⟩ = some body.view := congrArg (Option.map Body.view) hderef
    obtain ⟨slot, hread⟩ := h.graph.pointed hnode
    exact ⟨_, hm.reaches_of_read h hread, rfl⟩

/-! ## 2. What an update does -/

theorem call_carries (me rounds : Nat) (hm : o.Mirrors s) (h : s.Inv K path lost)
    (hfree : Radix.PrefixFree K) (hc : c.KeyIn {k | Db.view encode k ∈ K}) (hupdate : IsUpdate c) :
    (call me (rounds + 1) encode c).Ends P
      (fun _ o' => ∃ s' spared, (o' = o ∧ spared = [] ∨ Carries K path lost o s o' s' spared) ∧
        ∀ a, a ∈ spared ↔ LeavesOver encode o c a) (fun _ _ => True) o := by
  have hcounted := hm.toStores.tree
  cases c with
  | get | empty | clear => cases hupdate
  | insert k v =>
    have hnone : ∀ a, a ∈ ([] : List Nat) ↔ LeavesOver encode o (.insert k v) a := fun a =>
      iff_of_false List.not_mem_nil fun ⟨_, heq, _⟩ => nomatch heq
    refine .bind ((insertInternal_ends hm h hfree hc).mono ?_ fun _ _ _ => trivial)
    rintro (_ | _) o' ⟨s', hok⟩
    · exact ⟨s, [], .inl ⟨hok.2.1, rfl⟩, hnone⟩
    · exact ⟨s', [], .inr hok.2, hnone⟩
  | remove k =>
    have hleft : ∀ a, LeavesOver encode o (.remove k) a ↔
        ∃ q : NodePtr, q.addr = a ∧ s.tree.LeftOver (Db.view encode k) q := by
      intro a
      rw [← hcounted]
      constructor
      · rintro ⟨k', hk', hq⟩
        cases hk'
        exact hq
      · exact fun hq => ⟨k, rfl, hq⟩
    refine .bind ((removeInternal_ends hm h hfree hc).mono ?_ fun _ _ _ => trivial)
    rintro (_ | _) o' ⟨spared, ⟨s', hok⟩, hspared⟩
    · obtain ⟨hx, ho', -⟩ := hok
      refine ⟨s, [], .inl ⟨ho', rfl⟩, fun a => ?_⟩
      rw [hleft]
      refine iff_of_false List.not_mem_nil ?_
      rintro ⟨q, -, p, n, b, c, v, b', m, -, -, hleaf, -⟩
      exact Db.removeInternal_ne_false h (h.tree.stays hfree hc) hleaf hx
    · refine ⟨s', spared, .inr hok.2, fun a => ?_⟩
      rw [hleft]
      exact hspared rfl a

/-- What stays as it was needs no signal. -/
theorem Changes.ne (hchange : Changes o o' l) : o' ≠ o := by
  rintro rfl
  cases l with
  | root => exact hchange rfl
  | node a => exact hchange.2 rfl

/-- A change is signalled, or is one of a key prefix that the update leaves unsignalled. -/
theorem Carries.changes (hm : o.Mirrors s) (hcarries : Carries K path lost o s o' s' spared)
    (hchange : Changes o o' l) : Signals o o' l ∨ ∃ a ∈ spared, l = .node a := by
  obtain ⟨bumped, killed, hwrites⟩ := hcarries.writes
  by_cases hbumped : l ∈ bumped
  · obtain ⟨version, hfree, hfree'⟩ := hwrites.bump l hbumped
    exact .inl (.inr ⟨version, version + 1, hfree, hfree', Nat.lt_succ_self _⟩)
  cases l with
  | root => exact absurd (hwrites.root hbumped) hchange
  | node a =>
    obtain ⟨hknown, hchange⟩ := hchange
    by_cases hkilled : a ∈ killed
    · exact .inl (.inl (hwrites.kill a hkilled).2)
    by_cases hspared : a ∈ spared
    · exact .inr ⟨a, hspared, rfl⟩
    refine absurd (hwrites.node a ?_ hbumped hkilled hspared) hchange
    by_contra hge
    exact hknown (hm.fresh (hm.next ▸ Nat.le_of_not_lt hge))

/-- The prefix of a node grows while its version stays the same. -/
def GrowsUnseen (o o' : OlcDb sizes) (a : Nat) : Prop :=
  ∃ n n' version, o.mem.heap a = some (.inode n) ∧ o'.mem.heap a = some (.inode n') ∧
    n.keyPrefix.length < n'.keyPrefix.length ∧
    o.lock (.node a) = .free version ∧ o'.lock (.node a) = .free version

theorem GrowsUnseen.changes {a : Nat} (h : GrowsUnseen o o' a) : Changes o o' (.node a) := by
  obtain ⟨n, n', -, hn, hn', hlt, -⟩ := h
  refine ⟨by rw [hn]; simp, fun heq => ?_⟩
  rw [hn, hn'] at heq
  cases heq
  exact absurd hlt (Nat.lt_irrefl _)

theorem GrowsUnseen.not_signals {a : Nat} (h : GrowsUnseen o o' a) : ¬ Signals o o' (.node a) := by
  obtain ⟨n, n', version, -, -, -, hfree, hfree'⟩ := h
  rintro (hobs | ⟨v, v', hv, hv', hlt⟩)
  · cases hfree'.symm.trans hobs
  · cases hfree.symm.trans hv
    cases hfree'.symm.trans hv'
    exact absurd hlt (Nat.lt_irrefl _)

theorem Carries.growsUnseen (hm : o.Mirrors s) (hcarries : Carries K path lost o s o' s' spared)
    {a : Nat} (ha : a ∈ spared) (hin : s.tree.heap a ≠ none) : GrowsUnseen o o' a := by
  obtain ⟨bumped, killed, hwrites⟩ := hcarries.writes
  obtain ⟨hbumped, hkilled, n, n', hn, hn', -, hlt⟩ := hwrites.prefixes a ha
  obtain ⟨body, hbody⟩ := Option.ne_none_iff_exists'.mp hin
  obtain ⟨version, hfree⟩ := hm.node_free hbody
  refine ⟨n, n', version, hn, hn', hlt, hfree, ?_⟩
  rw [hwrites.lock _ hbumped fun x hx heq => hkilled (Site.node.inj heq ▸ hx), hfree]

theorem Carries.unlinks (hm : o.Mirrors s) (h : s.Inv K path lost)
    (hcarries : Carries K path lost o s o' s' spared) {a : Nat} (ha : Unlinks o o' a) :
    o'.lock (.node a) = .obsolete := by
  obtain ⟨bumped, killed, hwrites⟩ := hcarries.writes
  obtain ⟨path', hinv, -⟩ := hcarries.inv
  have hm' : o'.Mirrors s' := hm.of_writes hwrites hcarries.stores
  rw [Unlinks, hm.reaches_iff h.tree, hm'.reaches_iff hinv.tree, not_not] at ha
  obtain ⟨hold, hnew⟩ := ha
  obtain ⟨body, hbody⟩ := Option.ne_none_iff_exists'.mp hold
  -- The node is still in memory, so it has been retired.
  have hmem : o'.mem.heap a ≠ none := hwrites.ages.kept (by rw [hm.heap_eq hbody]; simp)
  rw [← hm'.tree, counted_heap] at hnew
  split at hnew
  · rename_i hretired
    obtain ⟨r, hr, rfl⟩ := List.mem_map.mp hretired
    exact hm'.obsolete (t := r.1) (p := r.2) hr
  · exact absurd hnew hmem

/-! ## 3. The law -/

/-- What an update that completes comes to, by the law. -/
theorem Used.versionLaw (hused : o.Used encode K) (hfree : Radix.PrefixFree K)
    (hupdate : IsUpdate c) (hc : c.KeyIn {k | Db.view encode k ∈ K}) {r : Output}
    (hperforms : Performs encode o (c, .ok r) o') :
    (VersionLaw o o' ↔ ∀ a, ¬ LeavesOver encode o c a) ∧
    (∀ l, Changes o o' l → Signals o o' l ∨ ∃ a, l = .node a ∧ LeavesOver encode o c a) ∧
    (∀ a, LeavesOver encode o c a → GrowsUnseen o o' a) ∧
    ∀ a, Unlinks o o' a → o'.lock (.node a) = .obsolete := by
  obtain ⟨s, path, lost, hm, h⟩ := hused.mirrors hfree
  obtain ⟨me, rounds, choices, hexec⟩ := hperforms
  obtain ⟨r', o₁, hexec₁, hok, -⟩ := (call_carries (P := fun _ => True) me rounds hm h hfree hc
    hupdate).exec choices fun _ => trivial
  obtain ⟨rfl, rfl⟩ := Prod.mk.inj (Option.some_inj.mp (hexec₁.symm.trans hexec))
  obtain ⟨s', spared, hstep, hspared⟩ := hok r rfl
  have hparts : (∀ l, Changes o o₁ l → Signals o o₁ l ∨ ∃ a, l = .node a ∧ LeavesOver encode o c a) ∧
      (∀ a, LeavesOver encode o c a → GrowsUnseen o o₁ a) ∧
      ∀ a, Unlinks o o₁ a → o₁.lock (.node a) = .obsolete := by
    rcases hstep with ⟨rfl, rfl⟩ | hcarries
    · refine ⟨fun l hl => absurd rfl hl.ne, fun a ha => ?_, fun a ha => absurd ha.1 ha.2⟩
      exact absurd ((hspared a).mpr ha) List.not_mem_nil
    · refine ⟨fun l hl => ?_, fun a ha => ?_, fun a ha => hcarries.unlinks hm h ha⟩
      · rcases hcarries.changes hm hl with hsignals | ⟨a, ha, rfl⟩
        · exact .inl hsignals
        · exact .inr ⟨a, rfl, (hspared a).mp ha⟩
      · refine hcarries.growsUnseen hm ((hspared a).mpr ha) ?_
        obtain ⟨k, -, q, rfl, p, n, b, c', v, b', m, -, -, -, -, -, -, hq⟩ := ha
        rw [hm.toStores.tree] at hq
        rw [(Tree.deref_eq_some_iff.mp hq).1]
        simp
  refine ⟨⟨fun hlaw a ha => ?_, fun hnone => ⟨fun l hl => ?_, hparts.2.2⟩⟩, hparts⟩
  · have hgrows := hparts.2.1 a ha
    exact hgrows.not_signals (hlaw.changed _ hgrows.changes)
  · exact (hparts.1 l hl).resolve_right fun ⟨a, _, ha⟩ => hnone a ha

/-- An update that completes keeps the version law unless it collapses a node onto another inner
    node: that one gets a longer key prefix under the version it had, and is the only node whose change
    is not signalled.  Whatever is unlinked ends obsolete. -/
theorem versionLaw_iff (hfree : Radix.PrefixFree K) (hused : o.Used encode K)
    (hupdate : IsUpdate c) (hc : c.KeyIn {k | Db.view encode k ∈ K}) {r : Output}
    (hperforms : Performs encode o (c, .ok r) o') :
    (VersionLaw o o' ↔ ∀ a, ¬ LeavesOver encode o c a) ∧
    (∀ l, Changes o o' l → Signals o o' l ∨ ∃ a, l = .node a ∧ LeavesOver encode o c a) ∧
    (∀ a, LeavesOver encode o c a → GrowsUnseen o o' a) ∧
    ∀ a, Unlinks o o' a → o'.lock (.node a) = .obsolete :=
  hused.versionLaw hfree hupdate hc hperforms

/-- The same, checked at the node `p`, its leaf child `c` on the byte `b` and its other child `q` on
    `b'`. -/
def leavesOverAt (o : OlcDb sizes) (k : List UInt8) (p c q : NodePtr) (b b' : UInt8) : Bool :=
  match o.counted.deref p, o.counted.deref c, o.counted.deref q with
  | some (.inode n), some (.leaf key _), some (.inode _) =>
    decide (key = k ∧ n.child b = some c ∧ n.child b' = some q ∧ b' ≠ b ∧
      ∀ x : Fin 256, (n.child (.ofFin x)).isSome → .ofFin x = b ∨ .ofFin x = b')
  | _, _, _ => false

theorem leavesOver_of_at {k : E} {c q : NodePtr} {b b' : UInt8}
    (h : leavesOverAt o (Db.view encode k) p c q b b') :
    LeavesOver encode o (.remove k) q.addr := by
  unfold leavesOverAt at h
  split at h
  case h_2 => cases h
  rename_i n key v m hp hc hq
  obtain ⟨rfl, hb, hb', hbb, honly⟩ := of_decide_eq_true h
  exact ⟨k, rfl, q, rfl, p, n, b, c, v, b', m, hp, hb, hc, hb', hbb,
    fun x hx => honly x.toFin hx, hq⟩

/-- Three insertions and the removal of the last key: the node of the first two keys gets a
    prefix of seven bytes in place of an empty one, and its lock shows nothing. -/
theorem exists_collapsed : ∃ events, ∃ o o' : OlcDb .olcDb,
    events.map (·.1) = [.insert 0x0101 [], .insert 0x0102 [], .insert 0x0200 []] ∧
    Run (Performs U64Key.make) (.empty .olcDb) events o ∧
    Performs U64Key.make o (.remove 0x0200, .ok (.bool true)) o' ∧
    LeavesOver U64Key.make o (.remove 0x0200) 2 := by
  have hruns : ((runCalls 0 (fun _ => {}) U64Key.make
      [.insert 0x0101 [], .insert 0x0102 [], .insert 0x0200 []] (.empty .olcDb)).any fun r =>
        r.1.length = 3 && (leavesOverAt r.2 (Db.view U64Key.make 0x0200) ⟨4, .i4⟩ ⟨3, .leaf⟩ ⟨2, .i4⟩ 2 1 &&
          ((call 0 1 U64Key.make (.remove 0x0200)).exec (fun _ => {}) r.2).any
            fun x => x.1 = .ok (.bool true))) = true := by
    decide +kernel
  obtain ⟨⟨rs, o⟩, hrun, hboth⟩ := (Option.any_eq_true _ _).mp hruns
  obtain ⟨hlen, hboth⟩ := Bool.and_eq_true_iff.mp hboth
  obtain ⟨hat, hremove⟩ := Bool.and_eq_true_iff.mp hboth
  obtain ⟨⟨r, o'⟩, hexec, hr⟩ := (Option.any_eq_true _ _).mp hremove
  obtain rfl : r = .ok (.bool true) := of_decide_eq_true hr
  refine ⟨_, o, o', List.map_fst_zip ?_, run_of_runCalls hrun, ⟨0, 0, _, hexec⟩, leavesOver_of_at hat⟩
  exact Nat.le_of_eq (of_decide_eq_true hlen).symm

theorem used_u64 {events : List (Call (BitVec 64) × Except Fault Output)}
    (hrun : Run (Performs U64Key.make) (.empty sizes) events o) : o.Used U64Key.make Db.u64Views := by
  have hempty : (empty sizes).Mirrors (Db.empty sizes) := empty_mirrors
  obtain ⟨hcompletes, -⟩ := run_u64_mirrors hempty (Db.Inv.empty fun _ => []) hrun
  exact ⟨events, hrun, fun e he => ⟨Db.keyIn_u64 Db.view_mem_u64Views e.1, hcompletes e he⟩⟩

/-- The removal of the last key of that run breaks the law. -/
theorem versionLaw_iff_collapsed :
    ∃ o o' : OlcDb .olcDb, o.Used U64Key.make Db.u64Views ∧
      Performs U64Key.make o (.remove 0x0200, .ok (.bool true)) o' ∧ ¬ VersionLaw o o' := by
  obtain ⟨events, o, o', -, hrun, hperforms, hleaves⟩ := exists_collapsed
  have hupdate : IsUpdate (.remove (0x0200 : BitVec 64)) := trivial
  refine ⟨o, o', used_u64 hrun, hperforms, fun hlaw => ?_⟩
  exact (versionLaw_iff Db.u64Views_prefixFree (used_u64 hrun) hupdate
    (Db.keyIn_u64 Db.view_mem_u64Views _) hperforms).1.mp hlaw _ hleaves

/-! ## 4. 64-bit keys -/

/-- In every state that an `olc_db<std::uint64_t>` comes to, an insertion or removal that completes keeps
    the version law if and only if it does not collapse a node onto another inner node. -/
theorem versionLaw_u64_iff {events : List (Call (BitVec 64) × Except Fault Output)}
    {c : Call (BitVec 64)} {r : Output} (hrun : Run (Performs U64Key.make) (.empty sizes) events o)
    (hupdate : IsUpdate c) (hperforms : Performs U64Key.make o (c, .ok r) o') :
    VersionLaw o o' ↔ ∀ a, ¬ LeavesOver U64Key.make o c a :=
  ((used_u64 hrun).versionLaw Db.u64Views_prefixFree hupdate (Db.keyIn_u64 Db.view_mem_u64Views c)
    hperforms).1

theorem versionLaw_u64_fails : ∃ events, ∃ o o' : OlcDb .olcDb,
    events.map (·.1) = [.insert 0x0101 [], .insert 0x0102 [], .insert 0x0200 []] ∧
    Run (Performs U64Key.make) (.empty .olcDb) events o ∧
    Performs U64Key.make o (.remove 0x0200, .ok (.bool true)) o' ∧ ¬ VersionLaw o o' := by
  obtain ⟨events, o, o', hevents, hrun, hperforms, hleaves⟩ := exists_collapsed
  have hupdate : IsUpdate (.remove (0x0200 : BitVec 64)) := trivial
  refine ⟨events, o, o', hevents, hrun, hperforms, fun hlaw => ?_⟩
  exact ((used_u64 hrun).versionLaw Db.u64Views_prefixFree hupdate
    (Db.keyIn_u64 Db.view_mem_u64Views _) hperforms).1.mp hlaw _ hleaves

/-- The condition on the state before that removal. -/
theorem versionLaw_u64_iff_collapsed : ∃ o o' : OlcDb .olcDb,
    LeavesOver U64Key.make o (.remove 0x0200) 2 ∧
    (VersionLaw o o' ↔ ∀ a, ¬ LeavesOver U64Key.make o (.remove 0x0200) a) := by
  obtain ⟨events, o, o', -, hrun, hperforms, hleaves⟩ := exists_collapsed
  have hupdate : IsUpdate (.remove (0x0200 : BitVec 64)) := trivial
  exact ⟨o, o', hleaves, versionLaw_u64_iff hrun hupdate hperforms⟩

end OlcDb

end Unodb
