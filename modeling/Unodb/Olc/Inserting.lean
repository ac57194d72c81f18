import Unodb.Olc.Updates

/-!
# An insertion among other threads

Whatever the others do, an attempt of `insert_internal` changes the tree in one action, by which it
adds the key, or finds the key in the tree, or leaves everything as it was.
-/

open Arrays

namespace Unodb

namespace OlcDb

namespace Meets

open World

variable {α κ : Type} [LawfulArtKey κ] {K : Set (List UInt8)} {t : Nat} {kit : Kit}
  {F : World sizes → Prop} {Q : α → World sizes → Prop} {k : κ} {v : List UInt8}
  {cachedLeaf : Option NodePtr}
  {request : Request} {x z : Nat}

/-! ## 1. New nodes -/

theorem createLeafIfNeeded {f : NodePtr → OlcM sizes α} (hF : Lasting K t F)
    (hcached : ∀ leaf, cachedLeaf = some leaf → leaf.type = .leaf)
    (hk : ∀ x, Meets K t { request, nodes := [(x, .leaf (ArtKey.getKeyView k) v)] } F (f ⟨x, .leaf⟩)
      Q) :
    Meets K t (.begin request (.leaf (ArtKey.getKeyView k) v) cachedLeaf) F
      (OlcDb.createLeafIfNeeded cachedLeaf k v >>= f) Q := by
  cases cachedLeaf with
  | some leaf =>
    obtain ⟨x, type⟩ := leaf
    obtain rfl : type = .leaf := hcached _ rfl
    exact hk x
  | none => exact makeDbLeafPtr hF (fun e he => ⟨.inl he, fun _ => rfl⟩) hk

/-- Without memory for an inner node the leaf is freed and the attempt ends. -/
theorem makeDbInode {type : NodeType} {keyPrefix : KeyPrefix} {body : Body} {f : NodePtr → OlcM sizes α}
    (hF : Lasting K t F)
    (hk : ∀ z, Meets K t
      { request, nodes := (z, .inode (INode.blank type keyPrefix)) :: [(x, body)] } F
      (f ⟨z, (INode.blank type keyPrefix).type⟩) Q) :
    Meets K t { request, nodes := [(x, body)] } F
      (OlcDb.makeDbInode (some ⟨x, body.type⟩) type keyPrefix >>= f) Q := by
  rw [OlcDb.makeDbInode, Prog.bind_assoc]
  refine tryMakeDbInode hF ?_ hk
  show Meets K t _ F ((OlcDb.free ⟨x, body.type⟩ >>= fun _ => Prog.throw .badAlloc) >>= f) Q
  rw [Prog.bind_assoc]
  exact free hF rfl (throw ⟨.inl rfl, fun _ => rfl⟩)

/-- A new node is there for the place: both sections are upgraded, or the node is freed and the leaf
    kept for the next attempt. -/
theorem bothGuards {parentCs nodeCs : CriticalSection} {n : INode NodePtr} {p f : OlcM sizes α}
    (hF : Lasting K t F) (hparent : ∀ ⦃w⦄, F w → w.Begun parentCs)
    (hnode : ∀ ⦃w⦄, F w → w.Begun nodeCs)
    (hp : Meets K t
      { request, locks := [nodeCs, parentCs],
        nodes := [(z, .inode n), (x, .leaf (ArtKey.getKeyView k) v)] }
      (fun w : World sizes => (F w ∧ w.CleanAt t parentCs) ∧ w.CleanAt t nodeCs) p Q)
    (hf : Meets K t { request, nodes := [(x, .leaf (ArtKey.getKeyView k) v)] } F f Q) :
    Meets K t { request, nodes := [(z, .inode n), (x, .leaf (ArtKey.getKeyView k) v)] } F
      (OlcDb.writeGuard t parentCs >>= fun b => if b = true then
        OlcDb.writeGuard t nodeCs >>= fun b => if b = true then p
          else OlcDb.unlock parentCs.lock >>= fun _ => OlcDb.free ⟨z, n.type⟩ >>= fun _ => f
        else OlcDb.free ⟨z, n.type⟩ >>= fun _ => f) Q := by
  have hfree : Meets K t { request, nodes := [(z, .inode n), (x, .leaf (ArtKey.getKeyView k) v)] } F
      (OlcDb.free ⟨z, (Body.inode n).type⟩ >>= fun _ => f) Q := free hF rfl hf
  have hboth := hF.and (lasting_clean parentCs)
  refine writeGuard hF hparent (writeGuard hboth (fun _ hw => hnode hw.1) hp ?_) hfree
  refine unlock hboth (List.Perm.refl _) rfl (fun w _ hlive hw => hw.2.2 hlive) ?_
  exact hfree.of_imp fun _ _ _ hw => hw.1

/-! ## 2. A leaf added to an inner node -/

section Node

variable {node : NodePtr} {parentCs nodeCs : CriticalSection} {sl : Slot}
  {slot : Radix.Slot NodePtr UInt8} {depth len shared count : Nat} {rem rem1 : κ}
  {P N : INode NodePtr → Prop} {b : UInt8} {R : AddResult → World sizes → Prop}

section Add

variable (hgood : GoodKeys K) (hkK : ArtKey.getKeyView k ∈ K)
  (hP : ∀ n, P n → n.keyPrefix.length = len ∧
    n.keyPrefix.getSharedLength (ArtKey.getU64 rem) = shared)
  (hge : ¬ shared < len) (hrem1 : ArtKey.shiftRight rem len = .ok rem1)
  (hb : ArtKey.byteAt rem1 0 = .ok b)
  (hN : ∀ n, N n → n.findChild b = none ∧ n.childrenCount = count)
  (hadded : ∀ ⦃w⦄, w.Has t { request := .insert (ArtKey.getKeyView k) v, did := true } → R .added w)
  (hrestart : ∀ ⦃w⦄, w.Has t { request := .insert (ArtKey.getKeyView k) v,
                               nodes := [(x, .leaf (ArtKey.getKeyView k) v)] } →
    R (.restart (some ⟨x, .leaf⟩)) w)
include hgood hkK hP hge hrem1 hb hN hadded hrestart

theorem addToNonfull (hroom : ¬ (node.type ≠ .i256 ∧ count = node.type.capacity)) :
    Meets K t { request := .insert (ArtKey.getKeyView k) v,
                nodes := [(x, .leaf (ArtKey.getKeyView k) v)] }
      (fun w : World sizes => w.AtNode t (ArtKey.getKeyView k) parentCs sl slot node depth rem nodeCs P N)
      (OlcDb.addToNonfull t node k (depth + len) nodeCs parentCs ⟨x, .leaf⟩ count) R := by
  have hat : Lasting K t (_ : World sizes → Prop) :=
    lasting_atNode t (ArtKey.getKeyView k) parentCs sl slot node depth rem nodeCs P N
  have hboth := hat.and (lasting_clean nodeCs)
  have hpassed : Lasting K t (_ : World sizes → Prop) :=
    lasting_passed (ArtKey.getKeyView k) node b (depth + len) rem1
  rw [OlcDb.addToNonfull]
  refine writeGuard hat (fun _ hw => hw.nodeBegun) ?_ (ret hat.steady fun w _ hhas _ => hrestart hhas)
  refine check (G := fun w => (w.AtNode t (ArtKey.getKeyView k) parentCs sl slot node depth rem nodeCs
      P N ∧ w.CleanAt t nodeCs) ∧ w.Passed (ArtKey.getKeyView k) node b (depth + len) rem1)
    hboth.steady (fun w hinv hhas hw hvalid => ?_) ?_ ?_
  · have hlive : w.Live t nodeCs := .inr ((hhas.locks nodeCs).mpr List.mem_cons_self)
    exact ⟨hw, hw.1.passed hinv hgood hkK hP hge hrem1 hb (.inl hvalid) hlive⟩
  · -- The lock of the node is held, so its children are still those that were read.
    refine updateInode (G := fun w => w.CleanAt t nodeCs) (hboth.and hpassed).steady
      (fun w hinv hhas hw => ?_) ?_
    · obtain ⟨⟨hat, hclean⟩, hpassed⟩ := hw
      have hlocked := (hhas.locks nodeCs).mpr List.mem_cons_self
      obtain ⟨n, hn, hNn⟩ := hat.kids (.inr hlocked)
      obtain ⟨hfind, hcount⟩ := hN n hNn
      obtain ⟨m, hm⟩ := hinv.mem_inode hn
      obtain ⟨hcount', hlayout'⟩ := hinv.mem_of_live hat.nodeSite (.inr hlocked) hn hm
      have hwf := hinv.tree.wf (Tree.deref_eq_some_iff.mp hn).1
      have hnone := (hwf.findChild_eq_none_iff b).mp hfind
      have hwf' : m.WF := hwf.of_kids hcount' hlayout'
      have hnone' : m.child b = none := by
        rw [INode.child_of_kids hcount' hlayout', hnone]
      have hroom' : ¬ (m.type ≠ .i256 ∧ m.childrenCount = m.type.capacity) := by
        rw [hcount', hcount, show m.type = node.type from (Tree.deref_eq_some_iff.mp hm).2]
        exact hroom
      obtain ⟨m', hm', hrep, hpre, htype⟩ := hwf'.addToNonfull hnone'
        (hwf'.degree_of_room hnone' hroom') (⟨x, .leaf⟩ : NodePtr)
      rw [hat.nodeSite] at hlocked
      obtain ⟨tree, path, hc, hcleaned⟩ := commit_addLeaf hinv hhas rfl rfl hkK rfl rfl hlocked
        (hat.nodeSite ▸ hclean.2 (.inr (hat.nodeSite ▸ hlocked))) hn hm hrep hpre htype hnone
        hpassed.next
      refine ⟨m, m', _, tree, path, hm, ?_, hc, hc.begun hinv hat.nodeBegun, fun _ => ?_⟩
      · rw [viewByte_eq_ok hpassed.byte, ← hcount, ← hcount']
        exact hm'
      · rw [hat.nodeSite]
        exact hcleaned
    · refine unlock (lasting_clean nodeCs) (List.Perm.refl _) rfl (fun _ _ hlive hw => hw.2 hlive) ?_
      exact ret (lasting_clean nodeCs).steady fun w _ hhas _ => hadded hhas
  · refine unlock hboth (List.Perm.refl _) rfl (fun _ _ hlive hw => hw.2.2 hlive) ?_
    exact ret hboth.steady fun w _ hhas _ => hrestart hhas

theorem growInode (htype : node.type ≠ .leaf)
    (hfull : node.type ≠ .i256 ∧ count = node.type.capacity) :
    Meets K t { request := .insert (ArtKey.getKeyView k) v,
                nodes := [(x, .leaf (ArtKey.getKeyView k) v)] }
      (fun w : World sizes => w.AtNode t (ArtKey.getKeyView k) parentCs sl slot node depth rem nodeCs P N)
      (OlcDb.growInode t node (depth + len) nodeCs sl parentCs ⟨x, .leaf⟩) R := by
  rw [OlcDb.growInode]
  refine of_imp (readPrefix (Lasting.const True) rfl htype fun keyPrefix _ => ?_)
    fun w _ _ hw => ⟨hw, trivial⟩
  have hat : Lasting K t (_ : World sizes → Prop) :=
    (lasting_atNode t (ArtKey.getKeyView k) parentCs sl slot node depth rem
    nodeCs (fun n => P n ∧ n.keyPrefix = keyPrefix) N).and (Lasting.const True)
  refine makeDbInode hat fun z => ?_
  refine bothGuards hat (fun _ hw => hw.1.begun) (fun _ hw => hw.1.nodeBegun) ?_
    (ret hat.steady fun w _ hhas _ => hrestart hhas)
  -- Both sections are upgraded: the node is as it was read.
  refine of_imp (G := fun w => ∃ n : INode NodePtr,
    (parentCs.lock = graphSite slot ∧ nodeCs.lock = .node node.addr ∧ n.WF ∧
      n.type = node.type ∧ n.keyPrefix = keyPrefix ∧ N n) ∧
    w.Grip t sl slot node (.inode n) (.inode n) ∧ w.Tidy t (.node node.addr) (fun _ => False) ∧
      w.Passed (ArtKey.getKeyView k) node b (depth + len) rem1 ∧ w.CleanAt t parentCs)
    (of_exists fun n => of_pure fun hfacts => ?_) fun w hinv hhas hw => ?_
  · obtain ⟨hsite, hnodeSite, hwf, htag, hpre, hNn⟩ := hfacts
    have hfirm : Firm K t (_ : World sizes → Prop) := (firm_grip t sl slot node (.inode n) (.inode n)).and
      ((firm_tidy t (.node node.addr) fun _ => False).and
        ((lasting_passed (ArtKey.getKeyView k) node b (depth + len) rem1).firm.and
          (lasting_clean parentCs).firm))
    obtain ⟨hfind, hcount⟩ := hN n hNn
    have hnone := (hwf.findChild_eq_none_iff b).mp hfind
    have h256 : n.type ≠ .i256 := htag ▸ hfull.1
    obtain ⟨n', hn', hrep, hpre', htype'⟩ := hwf.grow hnone
      (hwf.degree_of_full h256 (by rw [hcount, htag]; exact hfull.2)) h256 (⟨x, .leaf⟩ : NodePtr)
    have hlarger : n'.type = (INode.blank node.type.larger keyPrefix).type := by
      rw [htype', htag, blank_type]
      cases node.type <;> simp [NodeType.larger]
    refine unlockAndObsolete _ hfirm (List.Perm.refl _) hnodeSite List.mem_cons_self
      (fun w _ _ hw => ⟨slot, hw.1.read, .inl hsite.symm⟩) (fun _ _ _ ha => absurd ha List.not_mem_nil) ?_
    have hfirm' := hfirm.and (firm_doomed node.addr ⟨t, parentCs⟩)
    refine writeOwn hfirm' rfl hlarger (fun w hinv hhas hw c => ?_) ?_
    · have hz := hhas.mem List.mem_cons_self
      have hx := hhas.mem (List.mem_cons_of_mem _ List.mem_cons_self)
      rw [Tree.readInode_ok (Tree.deref_eq_some_iff.mpr ⟨hz, rfl⟩), Tree.readInode_ok hw.1.1.mem,
        Tree.readLeaf_ok (Tree.deref_eq_some_iff.mpr ⟨hx, rfl⟩)]
      simp only [Bind.bind, Except.bind, viewByte_eq_ok hw.1.2.2.1.byte, hn']
      rw [show { n' with keyPrefix := (INode.blank node.type.larger keyPrefix).keyPrefix } = n' by
        rw [← hpre, ← hpre']
        rfl]
      rfl
    refine onNextEpochDeallocate hfirm' (List.Perm.refl _)
      (fun w hinv hw => hinv.known hw.1.1.tree) ?_
    refine storeSlot (G := fun w => w.CleanAt t parentCs) hfirm'.steady (fun w hinv hhas hw => ?_) ?_
    · obtain ⟨⟨hgrip, htidy, hpassed, hclean⟩, hd⟩ := hw
      have hlocked := (hhas.locks parentCs).mpr List.mem_cons_self
      have hsiteClean : w.Clean parentCs.lock := hclean.2 (.inr hlocked)
      rw [hsite] at hlocked hsiteClean
      obtain ⟨tree, path, hc, hcleaned⟩ := commit_growNode hinv hhas rfl rfl hkK rfl hlocked
        hgrip.slotAt hgrip.read rfl ⟨_, hd⟩ hgrip.tree hnone hrep hpre' hpassed.next htidy.clean
        hsiteClean
      rw [hlarger] at hc hcleaned
      exact ⟨_, tree, path, hc, hc.begun hinv hclean.1, fun _ => hsite ▸ hcleaned⟩
    refine unlock (lasting_clean parentCs) (List.Perm.refl _) rfl (fun _ _ hlive hw => hw.2 hlive) ?_
    refine account (f := fun st => st.grown (INode.blank node.type.larger keyPrefix).type)
      (lasting_clean parentCs).firm (fun _ => rfl) (fun _ => rfl) ?_
    exact ret (lasting_clean parentCs).steady fun w _ hhas _ => hadded hhas
  · obtain ⟨⟨⟨hat, -⟩, hparentClean⟩, hnodeClean⟩ := hw
    have hnode := (hhas.locks nodeCs).mpr List.mem_cons_self
    have hplace := (hhas.locks parentCs).mpr (List.mem_cons_of_mem _ List.mem_cons_self)
    obtain ⟨n, hgrip, ⟨hPn, hpre⟩, hNn⟩ := hat.grip hinv hparentClean hplace hnode
    obtain ⟨hheap, htag⟩ := Tree.deref_eq_some_iff.mp hgrip.tree
    have htidy := hnodeClean.tidy hinv hnode
    rw [hat.nodeSite] at htidy
    refine ⟨n, ⟨hat.site.symm, hat.nodeSite, hinv.tree.wf hheap, htag, hpre, hNn⟩, hgrip, htidy, ?_,
      hparentClean⟩
    exact hat.passed hinv hgood hkK (fun n hn => hP n hn.1) hge hrem1 hb (.inr hplace) (.inr hnode)

end Add

/-! ## 3. An edge split by a new inner node -/

section Split

variable {k' u' : List UInt8} {shared : Nat} (hgood : GoodKeys K) (hkK : ArtKey.getKeyView k ∈ K)
  (hcached : ∀ leaf, cachedLeaf = some leaf → leaf.type = .leaf)
include hgood hkK hcached

theorem splitLeaf (hne : ArtKey.getKeyView k ≠ k') (hdepth : depth ≤ k'.length) :
    Meets K t (.begin (.insert (ArtKey.getKeyView k) v) (.leaf (ArtKey.getKeyView k) v) cachedLeaf)
      (fun w : World sizes => w.AtLeaf t (ArtKey.getKeyView k) parentCs sl slot node depth rem nodeCs k' u')
      (OlcDb.splitLeaf t k v cachedLeaf node k' sl parentCs nodeCs depth rem)
      (Attempted t (.insert (ArtKey.getKeyView k) v) (.leaf (ArtKey.getKeyView k) v)) := by
  have hat : Lasting K t (_ : World sizes → Prop) :=
    lasting_atLeaf t (ArtKey.getKeyView k) parentCs sl slot node depth rem nodeCs k' u'
  have hboth := (hat.and (lasting_clean parentCs)).and (lasting_clean nodeCs)
  rw [OlcDb.splitLeaf]
  refine createLeafIfNeeded hat hcached fun x => lift ⟨_, if_pos hdepth⟩ fun kp hkp =>
    makeDbInode hat fun z => ?_
  refine bothGuards hat (fun _ hw => hw.begun) (fun _ hw => hw.leafBegun) ?_
    (ret hat.steady fun w _ hhas _ => .restart hhas)
  -- Both keys are below the place, and part within the bytes that the new node can hold.
  refine of_imp (F := fun w => _) (G := fun w => (∃ n' b b',
      INode.initLeafSplit kp k' rem depth node (⟨x, .leaf⟩ : NodePtr) = .ok n' ∧
      n'.keyPrefix = kp ∧ n'.type = .i4 ∧ b ≠ b' ∧ n'.Rep (Tree.twoChildren b node b' x) ∧
      kp.bytes ++ [b] <+: k'.drop depth ∧ kp.bytes ++ [b'] <+: (ArtKey.getKeyView k).drop depth) ∧
      (w.AtLeaf t (ArtKey.getKeyView k) parentCs sl slot node depth rem nodeCs k' u' ∧
        w.CleanAt t parentCs) ∧ w.CleanAt t nodeCs)
    (of_pure fun hfacts => ?_) fun w hinv hhas hw => ?_
  · obtain ⟨n', b, b', hn', hpre, htype, hbb, hrep, hb, hb'⟩ := hfacts
    refine writeOwn hboth.firm rfl htype (fun w hinv hhas hw c => ?_) ?_
    · have hz := hhas.mem List.mem_cons_self
      rw [Tree.readInode_ok (Tree.deref_eq_some_iff.mpr ⟨hz, rfl⟩)]
      simp only [Bind.bind, Except.bind]
      rw [show (INode.blank .i4 kp).keyPrefix = kp from rfl, hn']
      rfl
    refine storeSlot (G := fun w => w.CleanAt t parentCs ∧ w.CleanAt t nodeCs) hboth.steady
      (fun w hinv hhas hw => ?_) ?_
    · obtain ⟨⟨hat, hparent⟩, hnode⟩ := hw
      have hlocked := (hhas.locks nodeCs).mpr List.mem_cons_self
      have hheld := (hhas.locks parentCs).mpr (List.mem_cons_of_mem _ List.mem_cons_self)
      have hlive : w.Live t parentCs := .inr hheld
      have hsite : w.Clean parentCs.lock := hparent.2 hlive
      obtain ⟨⟨-, hsplit, -, -⟩, -⟩ := hat.parts hinv hgood hkK hne hlive (.inr hlocked)
      rw [← hat.site] at hheld hsite
      obtain ⟨tree, path, hc, hcleaned⟩ := commit_splitLeaf hinv hhas rfl rfl hkK rfl hheld
        (hat.slotAt hlive) (hat.read hlive) rfl (hat.linked hinv (.inr hlocked)) hrep hbb hne
        (by
          rw [hpre, List.append_assoc, ← hsplit]
          exact (List.prefix_append_right_inj _).mpr hb)
        (by
          rw [hpre, List.append_assoc]
          exact (hat.at hlive).isPrefix_append_iff.mpr hb') hsite
      rw [htype] at hc hcleaned
      refine ⟨_, tree, path, hc, ⟨hc.begun hinv hat.begun, fun _ => hat.site ▸ hcleaned⟩,
        hc.begun hinv hat.leafBegun, fun _ => ?_⟩
      rw [hat.leafSite]
      exact (hc.inv hinv).clean_of_leaf (hc.leaf hinv hat.known hat.mem)
    have hclean : Lasting K t (_ : World sizes → Prop) :=
      (lasting_clean parentCs).and (lasting_clean nodeCs)
    refine unlock hclean (List.Perm.refl _) rfl (fun _ _ hlive hw => hw.2.2 hlive) ?_
    refine unlock hclean (List.Perm.refl _) rfl (fun _ _ hlive hw => hw.1.2 hlive) ?_
    refine account (f := fun st => st.grown .i4) hclean.firm (fun _ => rfl) (fun _ => rfl) ?_
    exact ret hclean.steady fun w _ hhas _ => hhas
  · refine ⟨?_, hw⟩
    obtain ⟨⟨hat, -⟩, -⟩ := hw
    have hnode := (hhas.locks nodeCs).mpr List.mem_cons_self
    have hplace := (hhas.locks parentCs).mpr (List.mem_cons_of_mem _ List.mem_cons_self)
    obtain ⟨⟨-, -, h12, h21⟩, hparts⟩ := hat.parts hinv hgood hkK hne (.inr hplace) (.inr hnode)
    obtain ⟨kp', n', b, b', hkp', hn', hspec⟩ :=
      INode.initLeafSplit_spec hat.rem_drop hdepth h12 h21 hparts node (⟨x, .leaf⟩ : NodePtr)
    obtain rfl : kp = kp' := Except.ok.inj (hkp.symm.trans hkp')
    exact ⟨n', b, b', hn', hspec⟩

omit hgood hkK hcached in
/-- Both sections of an inner node are upgraded, whose prefix the key leaves: the node is cut back and
    the new one gets its two children. -/
theorem initPrefixSplit {n n' : INode NodePtr} {kp cut : KeyPrefix} {f : Unit → OlcM sizes α}
    {Q : α → World sizes → Prop} (hsite : nodeCs.lock = .node node.addr)
    (hn' : INode.initPrefixSplit kp n.keyPrefix node shared depth (ArtKey.getKeyView k)
      (⟨x, .leaf⟩ : NodePtr) = .ok (n', cut)) (htype : n'.type = .i4)
    (hk : Meets K t
      { request, locks := [nodeCs, parentCs],
        nodes := [(z, .inode n'), (x, .leaf (ArtKey.getKeyView k) v)] }
      (fun w : World sizes => w.Grip t sl slot node (.inode n) (.inode { n with keyPrefix := cut }) ∧
        w.Looks t (ArtKey.getKeyView k) parentCs sl slot node depth rem ∧
        w.Tidy t (graphSite slot) (· = slot) ∧ w.Tidy t (.node node.addr) (fun _ => False)) (f ()) Q) :
    Meets K t
      { request, locks := [nodeCs, parentCs],
        nodes := [(z, .inode (INode.blank .i4 kp)), (x, .leaf (ArtKey.getKeyView k) v)] }
      (fun w : World sizes => w.Grip t sl slot node (.inode n) (.inode n) ∧
        w.Looks t (ArtKey.getKeyView k) parentCs sl slot node depth rem ∧
        w.Tidy t (graphSite slot) (fun _ => False) ∧ w.Tidy t (.node node.addr) fun _ => False)
      (OlcDb.initPrefixSplit ⟨z, (INode.blank .i4 kp).type⟩ node shared depth ⟨x, .leaf⟩ >>= f) Q := by
  have hF : Steady K t (_ : World sizes → Prop) :=
    (firm_grip t sl slot node (.inode n) (.inode n)).steady.and
    ((lasting_looks t (ArtKey.getKeyView k) parentCs sl slot node depth rem).steady.and
      ((firm_tidy t (graphSite slot) fun _ => False).steady.and
        (firm_tidy t (.node node.addr) fun _ => False).steady))
  refine neutral hF (fun w hinv hhas hw => ?_) fun _ => hk
  obtain ⟨hgrip, hlooks, hparent, hnode⟩ := hw
  have hz := hhas.mem List.mem_cons_self
  have hx := hhas.mem (List.mem_cons_of_mem _ List.mem_cons_self)
  have hpriv := hhas.priv_of_mem List.mem_cons_self
  have hheap := (Tree.deref_eq_some_iff.mp hgrip.mem).1
  have hne : node.addr ≠ z := hlooks.known.ne_own hinv hpriv
  have hnot : node.addr ∉ w.db.retired.map (·.2.addr) := by
    refine hinv.not_retired ?_
    by_contra hcon
    have hlocked := (hhas.locks nodeCs).mpr List.mem_cons_self
    rw [hsite, (hinv.obsolete _).mpr hcon] at hlocked
    cases hlocked
  have hcut := hinv.rewrite_prefix hgrip.read hgrip.place (.inl hgrip.own) hnot hheap cut
  have hzcut : (w.rewrite node.addr { n with keyPrefix := cut }).db.mem.heap z =
      some (.inode (INode.blank .i4 kp)) := by
    rw [rewrite_heap, if_neg hne.symm]
    exact hz
  have hneutral := hcut.rewrite_own hinv hpriv (a := z) hpriv hzcut rfl (htype.trans rfl)
  have hhas' := (hhas.rewrite_known hinv hlooks.known { n with keyPrefix := cut }).rewrite_own rfl n'
  -- Of the linked nodes only the one at the place has changed.
  have hmem : ∀ {slot' p m}, slot' ≠ slot → w.tree.graph.read slot' = some p →
      ((w.rewrite node.addr { n with keyPrefix := cut }).rewrite z n').db.mem.heap p.addr =
        some (.inode m) →
      ∃ m', w.db.mem.heap p.addr = some (.inode m') ∧ m'.keyPrefix = m.keyPrefix := by
    intro slot' p m hslot hread hm
    obtain ⟨body, hbody⟩ := hinv.tree_of_read hread
    have hpz : p.addr ≠ z := (hinv.known hbody).ne_own hinv hpriv
    have hpn : p.addr ≠ node.addr := by
      intro heq
      rw [Tree.deref_addr_inj hbody hgrip.tree heq] at hread
      exact hslot (hinv.tree.graph.slot_unique hread hgrip.read)
    refine ⟨m, ?_, rfl⟩
    rwa [rewrite_heap, if_neg hpz, rewrite_heap, if_neg hpn] at hm
  refine ⟨(), _, fun c => ?_, hneutral, hhas', ⟨hneutral.owns hgrip.place, hneutral.owns hgrip.own,
    hgrip.slotAt, hgrip.read, hgrip.tree, ?_⟩, hneutral.looks hinv hlooks,
    hparent.of_mem rfl (hneutral.owns hparent.own) (fun _ h => h.elim) fun _ h => hmem h,
    hnode.of_mem rfl (hneutral.owns hnode.own) (fun _ h => h) fun hslot _ => hmem ?_⟩
  · rw [Tree.readInode_ok (Tree.deref_eq_some_iff.mpr ⟨hz, rfl⟩), Tree.readInode_ok hgrip.mem,
      Tree.readLeaf_ok (Tree.deref_eq_some_iff.mpr ⟨hx, rfl⟩)]
    simp only [Bind.bind, Except.bind]
    rw [show (INode.blank .i4 kp).keyPrefix = kp from rfl, hn']
    rfl
  · refine Tree.deref_eq_some_iff.mpr ⟨?_, (Tree.deref_eq_some_iff.mp hgrip.mem).2⟩
    rw [rewrite_heap, if_neg hne, rewrite_heap, if_pos rfl]
  · rintro rfl
    exact hinv.ne_place hgrip.read hslot

theorem splitPrefix (htype : node.type ≠ .leaf)
    (hP : ∀ n, P n → n.keyPrefix.length = len ∧
      n.keyPrefix.getSharedLength (ArtKey.getU64 rem) = shared)
    (hlt : shared < len) (hlen : len ≤ keyPrefixCapacity) :
    Meets K t (.begin (.insert (ArtKey.getKeyView k) v) (.leaf (ArtKey.getKeyView k) v) cachedLeaf)
      (fun w : World sizes => w.AtNode t (ArtKey.getKeyView k) parentCs sl slot node depth rem nodeCs P N)
      (OlcDb.splitPrefix t k v cachedLeaf node shared sl parentCs nodeCs depth)
      (Attempted t (.insert (ArtKey.getKeyView k) v) (.leaf (ArtKey.getKeyView k) v)) := by
  have hbegin : Lasting K t (_ : World sizes → Prop) :=
    lasting_atNode t (ArtKey.getKeyView k) parentCs sl slot node depth rem nodeCs P N
  rw [OlcDb.splitPrefix]
  refine createLeafIfNeeded hbegin hcached fun x => ?_
  refine of_imp (readPrefix (Lasting.const True) rfl htype fun source _ => ?_)
    fun w _ _ hw => ⟨hw, trivial⟩
  have hat : Lasting K t (_ : World sizes → Prop) :=
    (lasting_atNode t (ArtKey.getKeyView k) parentCs sl slot node depth rem
    nodeCs (fun n => P n ∧ n.keyPrefix = source) N).and (Lasting.const True)
  -- From the prefix that was read; the guards check that it is still that of the node.
  refine lift ⟨_, dif_pos ((Nat.le_of_lt hlt).trans hlen)⟩ fun kp hkp => makeDbInode hat fun z => ?_
  refine bothGuards hat (fun _ hw => hw.1.begun) (fun _ hw => hw.1.nodeBegun) ?_
    (ret hat.steady fun w _ hhas _ => .restart hhas)
  refine of_imp (G := fun w => ∃ n : INode NodePtr, (n.keyPrefix = source ∧
      parentCs.lock = graphSite slot ∧ nodeCs.lock = .node node.addr ∧ ∃ n' cut b c,
      INode.initPrefixSplit kp source node shared depth (ArtKey.getKeyView k)
        (⟨x, .leaf⟩ : NodePtr) = .ok (n', cut) ∧
      n'.keyPrefix = kp ∧ n'.type = .i4 ∧ b ≠ c ∧ n'.Rep (Tree.twoChildren b node c x) ∧
      source.bytes = kp.bytes ++ [b] ++ cut.bytes ∧
      kp.bytes ++ [c] <+: (ArtKey.getKeyView k).drop depth) ∧
      w.Grip t sl slot node (.inode n) (.inode n) ∧
        w.Looks t (ArtKey.getKeyView k) parentCs sl slot node depth rem ∧
        w.Tidy t (graphSite slot) (fun _ => False) ∧ w.Tidy t (.node node.addr) fun _ => False)
    (of_exists fun n => of_pure fun hfacts => ?_) fun w hinv hhas hw => ?_
  -- The commit: both nodes are written, and one store makes them part of the tree.
  · obtain ⟨hsource, hsite, hnodeSite, n', cut, b, c, hn', hpre, htype', hbc, hrep, hbytes, hc⟩ := hfacts
    refine initPrefixSplit hnodeSite (hsource ▸ hn') htype' ?_
    refine storeSlot (G := fun w => w.CleanAt t parentCs ∧ w.CleanAt t nodeCs)
      ((firm_grip t sl slot node _ _).steady.and ((lasting_looks t (ArtKey.getKeyView k) parentCs sl slot
        node depth rem).steady.and ((firm_tidy t (graphSite slot) _).steady.and
          (firm_tidy t (.node node.addr) _).steady))) (fun w hinv hhas hw => ?_) ?_
    · obtain ⟨hgrip, hlooks, hparent, hnode⟩ := hw
      have hheld := (hhas.locks parentCs).mpr (List.mem_cons_of_mem _ List.mem_cons_self)
      have hlive : w.Live t parentCs := .inr hheld
      have hnodeBegun : w.Begun nodeCs := by
        refine ⟨fun a ha => ⟨node, Site.node.inj (hnodeSite.symm.trans ha), hlooks.known⟩, ?_⟩
        rw [(hhas.locks nodeCs).mpr List.mem_cons_self]
        exact Nat.le_refl _
      rw [hsite] at hheld
      obtain ⟨tree, path, hcommit, hcleaned, hnodeCleaned⟩ := commit_splitPrefix hinv hhas rfl rfl hkK
        rfl hheld hgrip.slotAt hgrip.read rfl hgrip.tree hgrip.mem hrep hbc
        (by rw [hsource, hpre, hbytes])
        (by
          rw [hpre, List.append_assoc]
          exact (hlooks.at hlive).isPrefix_append_iff.mpr hc)
        hgrip.own hnode.clean fun slot' q hslot hne hread _ _ => hparent.right hslot hne hread
      rw [htype'] at hcommit hcleaned hnodeCleaned
      refine ⟨_, tree, path, hcommit, ⟨hcommit.begun hinv hlooks.begun, fun _ => hsite ▸ hcleaned⟩,
        hcommit.begun hinv hnodeBegun, fun _ => hnodeSite ▸ hnodeCleaned⟩
    -- What is left is to unlock and to count.
    have hclean : Lasting K t (_ : World sizes → Prop) :=
      (lasting_clean parentCs).and (lasting_clean nodeCs)
    refine unlock hclean (List.Perm.refl _) rfl (fun _ _ hlive hw => hw.2.2 hlive) ?_
    refine unlock hclean (List.Perm.refl _) rfl (fun _ _ hlive hw => hw.1.2 hlive) ?_
    refine account (f := fun st => st.grown .i4) hclean.firm (fun _ => rfl) (fun _ => rfl) ?_
    refine account (f := fun st => { st with keyPrefixSplits := st.keyPrefixSplits + 1 }) hclean.firm
      (fun _ => rfl) (fun _ => rfl) ?_
    exact ret hclean.steady fun w _ hhas _ => hhas
  · obtain ⟨⟨⟨hat, -⟩, hparentClean⟩, hnodeClean⟩ := hw
    -- With both guards held the node is the one that was seen.
    have hnode := (hhas.locks nodeCs).mpr List.mem_cons_self
    have hplace := (hhas.locks parentCs).mpr (List.mem_cons_of_mem _ List.mem_cons_self)
    obtain ⟨n, hgrip, ⟨hPn, hsource⟩, -⟩ := hat.grip hinv hparentClean hplace hnode
    obtain ⟨hlen, hshared⟩ := hP n hPn
    obtain ⟨kp', n', cut, b, c, hkp', hn', hspec⟩ := INode.initPrefixSplit_spec
      (LawfulArtKey.rem_getU64 hat.rem_drop)
      ((hat.at (.inr hplace)).not_isPrefix_bytes hinv.tree hgrip.read hgrip.tree
        (hinv.tree.not_isPrefix_path hgood.prefixFree hkK hgrip.tree))
      (by rw [hlen, hshared]; exact hlt) rfl node (⟨x, .leaf⟩ : NodePtr)
    rw [hshared, hsource] at hkp' hn'
    obtain rfl : kp = kp' := Except.ok.inj (hkp.symm.trans hkp')
    have hparentTidy := hparentClean.tidy hinv hplace
    have hnodeTidy := hnodeClean.tidy hinv hnode
    rw [← hat.site] at hparentTidy
    rw [hat.nodeSite] at hnodeTidy
    exact ⟨n, ⟨hsource, hat.site.symm, hat.nodeSite, n', cut, b, c, hn', hsource ▸ hspec⟩, hgrip,
      hat.toLooks, hparentTidy, hnodeTidy⟩

end Split

/-! ## 4. The loop -/

/-- What `add_or_choose_subtree` comes to. -/
def Chosen (t : Nat) (k : κ) (v : List UInt8) (cachedLeaf : Option NodePtr)
    (F : Nat → Nat → World sizes → Prop) (node : NodePtr) : AddResult → World sizes → Prop
  | .restart cachedLeaf, w =>
    Attempted t (.insert (ArtKey.getKeyView k) v) (.leaf (ArtKey.getKeyView k) v) (.restart cachedLeaf) w
  | .added, w => w.Has t { request := .insert (ArtKey.getKeyView k) v, did := true }
  | .child childInParent, w => ∃ ci i, childInParent = .child node.addr i ∧ F ci i w ∧
      w.Has t (.begin (.insert (ArtKey.getKeyView k) v) (.leaf (ArtKey.getKeyView k) v) cachedLeaf)

section Loop

variable (hgood : GoodKeys K) (hkK : ArtKey.getKeyView k ∈ K)
  (hcached : ∀ leaf, cachedLeaf = some leaf → leaf.type = .leaf)
include hgood hkK hcached

theorem addOrChooseSubtree (htype : node.type ≠ .leaf)
    (hP : ∀ n, P n → n.keyPrefix.length = len ∧
      n.keyPrefix.getSharedLength (ArtKey.getU64 rem) = shared)
    (hge : ¬ shared < len) (hrem1 : ArtKey.shiftRight rem len = .ok rem1)
    (hb : ArtKey.byteAt rem1 0 = .ok b) :
    Meets K t (.begin (.insert (ArtKey.getKeyView k) v) (.leaf (ArtKey.getKeyView k) v) cachedLeaf)
      (fun w : World sizes => w.AtNode t (ArtKey.getKeyView k) parentCs sl slot node depth rem
      nodeCs P fun _ => True)
      (OlcDb.addOrChooseSubtree t node b k v (depth + len) nodeCs sl parentCs cachedLeaf)
      (Chosen t k v cachedLeaf (fun ci i w => w.AtNode t (ArtKey.getKeyView k) parentCs sl slot node
        depth rem nodeCs P fun n => True ∧ n.findChild b = some (ci, i)) node) := by
  rw [OlcDb.addOrChooseSubtree]
  refine of_imp (readKids (Lasting.const True) rfl htype
    (fun hcount hlayout => by rw [INode.findChild_of_kids hcount hlayout]) fun r _ => ?_)
    fun w _ _ hw => ⟨hw, trivial⟩
  have hread : Lasting K t (_ : World sizes → Prop) :=
    (lasting_atNode t (ArtKey.getKeyView k) parentCs sl slot node depth rem
    nodeCs P (fun n => True ∧ n.findChild b = r)).and (Lasting.const True)
  cases r with
  | some r =>
    obtain ⟨ci, i⟩ := r
    exact ret hread.steady fun w _ hhas hw => ⟨ci, i, rfl, hw.1, hhas⟩
  | none =>
    refine createLeafIfNeeded hread hcached fun x => ?_
    refine readKids (Lasting.const True) rfl htype (fun hcount _ => hcount) fun count _ => ?_
    refine ite (fun hfull => ?_) fun hroom => ?_
    · exact of_imp (growInode hgood hkK hP hge hrem1 hb (fun n hn => ⟨hn.1.2, hn.2⟩) (fun _ h => h)
        (fun _ h => .restart h) htype hfull) fun w _ _ hw => hw.1
    · exact of_imp (addToNonfull hgood hkK hP hge hrem1 hb (fun n hn => ⟨hn.1.2, hn.2⟩) (fun _ h => h)
        (fun _ h => .restart h) hroom) fun w _ _ hw => hw.1

omit hgood hkK in
/-- The key is in the tree: the leaf of an earlier attempt is freed. -/
theorem resetLeaf :
    Meets K t (.begin (.insert (ArtKey.getKeyView k) v) (.leaf (ArtKey.getKeyView k) v) cachedLeaf)
      (fun w : World sizes => w.Saw t (.updated false)) (OlcDb.resetLeaf cachedLeaf >>= fun _ =>
      pure (.done false))
      (Attempted t (.insert (ArtKey.getKeyView k) v) (.leaf (ArtKey.getKeyView k) v)) := by
  have hret : Meets K t { request := .insert (ArtKey.getKeyView k) v }
      (fun w : World sizes => w.Saw t (.updated false))
      (pure (.done false)) (Attempted t (.insert (ArtKey.getKeyView k) v)
        (.leaf (ArtKey.getKeyView k) v)) :=
    ret (lasting_saw t _).steady fun w _ hhas hw => ⟨hhas, hw⟩
  cases cachedLeaf with
  | none => exact hret
  | some leaf =>
    obtain ⟨x, type⟩ := leaf
    obtain rfl : type = .leaf := hcached _ rfl
    exact free (b := .leaf (ArtKey.getKeyView k) v) (lasting_saw t _) rfl hret

/-- The loop goes on to a child. -/
theorem insertChild (htotal : ArtKey.Total κ) {ci i : Nat} {f : NodePtr → κ → OlcM sizes Attempt}
    (hP : ∀ n, P n → n.keyPrefix.length = len ∧
      n.keyPrefix.getSharedLength (ArtKey.getU64 rem) = shared)
    (hge : ¬ shared < len) (hrem1 : ArtKey.shiftRight rem len = .ok rem1)
    (hb : ArtKey.byteAt rem1 0 = .ok b) (htype : node.type ≠ .leaf)
    (hf : ∀ child rem2, Meets K t
      (.begin (.insert (ArtKey.getKeyView k) v) (.leaf (ArtKey.getKeyView k) v) cachedLeaf)
      (fun w : World sizes => w.Looks t (ArtKey.getKeyView k) nodeCs (.child node.addr i)
      (.child node b) child
        (depth + len + 1) rem2) (f child rem2)
      (Attempted t (.insert (ArtKey.getKeyView k) v) (.leaf (ArtKey.getKeyView k) v))) :
    Meets K t (.begin (.insert (ArtKey.getKeyView k) v) (.leaf (ArtKey.getKeyView k) v) cachedLeaf)
      (fun w : World sizes => w.AtNode t (ArtKey.getKeyView k) parentCs sl slot node depth rem
      nodeCs P fun n =>
        True ∧ n.findChild b = some (ci, i))
      (OlcDb.check parentCs >>= fun c => if c = true then
        OlcDb.loadChild nodeCs (.child node.addr i) >>= fun child =>
          Prog.lift (ArtKey.shiftRight rem1 1) >>= fun rem2 =>
            OlcDb.check nodeCs >>= fun c => if c = true then
              Prog.lift (child.elim (.error .badAccess) .ok) >>= fun child => f child rem2
            else pure (.restart cachedLeaf)
        else pure (.restart cachedLeaf))
      (Attempted t (.insert (ArtKey.getKeyView k) v) (.leaf (ArtKey.getKeyView k) v)) := by
  have hat : Lasting K t (_ : World sizes → Prop) :=
    lasting_atNode t (ArtKey.getKeyView k) parentCs sl slot node depth rem
    nodeCs P fun n => True ∧ n.findChild b = some (ci, i)
  have hpassed : Lasting K t fun w : World sizes => w.Begun nodeCs ∧ (w.Live t nodeCs →
      w.Passed (ArtKey.getKeyView k) node b (depth + len) rem1) :=
    Lasting.live fun hinv hinv' hkeeps _ _ h => lasting_passed _ _ _ _ _ hinv hinv' hkeeps h
  -- The section of the place is valid here for the last time.
  refine check (G := fun w => w.AtNode t (ArtKey.getKeyView k) parentCs sl slot node depth rem nodeCs P
      (fun n => True ∧ n.findChild b = some (ci, i)) ∧ w.Begun nodeCs ∧ (w.Live t nodeCs →
      w.Passed (ArtKey.getKeyView k) node b (depth + len) rem1)) hat.steady
    (fun w hinv hhas hw hvalid => ⟨hw, hw.nodeBegun, fun hlive =>
      hw.passed hinv hgood hkK hP hge hrem1 hb (.inl hvalid) hlive⟩)
    (loadChild hpassed rfl htype i fun r => ?_) (ret hat.steady fun w _ hhas _ => ⟨hcached, hhas⟩)
  have hloaded : Lasting K t (_ : World sizes → Prop) :=
    (lasting_atNode t (ArtKey.getKeyView k) parentCs sl slot node depth rem
    nodeCs P fun n => (True ∧ n.findChild b = some (ci, i)) ∧ n.slot i = r).and hpassed
  refine lift (htotal.shiftRight rem1 (by decide)) fun rem2 hrem2 => ?_
  refine check (G := fun w => ∃ child, r = some child ∧ w.Looks t (ArtKey.getKeyView k) nodeCs
      (.child node.addr i) (.child node b) child (depth + len + 1) rem2) hloaded.steady
    (fun w hinv hhas hw hvalid => ?_) (of_exists fun child => of_pure fun hr => ?_)
    (ret hloaded.steady fun w _ hhas _ => ⟨hcached, hhas⟩)
  · obtain ⟨hat, hbegun, hpassed⟩ := hw
    have hlive : w.Live t nodeCs := .inl hvalid
    obtain ⟨n, hn, ⟨-, hfind⟩, hslot⟩ := hat.kids hlive
    have hwf := hinv.tree.wf (Tree.deref_eq_some_iff.mp hn).1
    obtain ⟨child, hchild, hslot', -⟩ := hwf.findChild_eq_some hfind
    obtain rfl : r = some child := hslot.symm.trans hslot'
    have hread : w.tree.graph.read (.child node b) = some child := by
      rw [Tree.graph_read_child hn, hchild]
    obtain ⟨body, hbody⟩ := hinv.tree_of_read hread
    exact ⟨child, rfl, (hpassed hlive).looks hinv hat.nodeSite hbegun (fun _ => ⟨n, hn, hfind, hslot⟩)
      (hinv.known hbody) (hinv.below hread) hrem2⟩
  · subst hr
    exact hf child rem2

theorem insertLoop (htotal : ArtKey.Total κ) (fuel : Nat)
    (hfuel : (ArtKey.getKeyView k).length < fuel + depth) :
    Meets K t (.begin (.insert (ArtKey.getKeyView k) v) (.leaf (ArtKey.getKeyView k) v) cachedLeaf)
      (fun w : World sizes => w.Looks t (ArtKey.getKeyView k) parentCs sl slot node depth rem)
      (OlcDb.insertLoop t k v cachedLeaf fuel node sl parentCs depth rem)
      (Attempted t (.insert (ArtKey.getKeyView k) v) (.leaf (ArtKey.getKeyView k) v)) := by
  -- The induction is on the fuel, which is more than what is left of the key.
  induction fuel generalizing node sl slot parentCs depth rem with
  | zero =>
    refine of_imp of_false fun w _ _ hw => ?_
    have hlen := hw.start.length_le
    rw [hw.depth_eq] at hlen
    omega
  | succ fuel ih =>
    have hlooks : Lasting K t (_ : World sizes → Prop) :=
      lasting_looks t (ArtKey.getKeyView k) parentCs sl slot node depth rem
    rw [OlcDb.insertLoop]
    refine tryReadLock hlooks (fun w hw a ha => ⟨node, Site.node.inj ha, hw.known⟩)
      (ret hlooks.steady fun w _ hhas _ => ⟨hcached, hhas⟩) fun version => ?_
    have hbegun := hlooks.and (lasting_begun (⟨.node node.addr, version⟩ : CriticalSection))
    -- At a leaf the attempt ends one way or another; an inner node may lead on.
    refine ite (fun hleaf => ?_) fun hinode => ?_
    · refine readKey hbegun hleaf (fun _ hw => hw.1.known) fun k' u' => ?_
      refine of_imp (F := fun w => _) (G := fun w => depth ≤ k'.length ∧ w.AtLeaf t
        (ArtKey.getKeyView k) parentCs sl slot node depth rem ⟨.node node.addr, version⟩ k' u')
        (of_pure fun hdepth => ite (fun heq => ?_) fun hne => ?_) fun w hinv hhas hw => ?_
      · have hat : Lasting K t (_ : World sizes → Prop) :=
          lasting_atLeaf t (ArtKey.getKeyView k) parentCs sl slot node depth
          rem ⟨.node node.addr, version⟩ k' u'
        refine check hat.steady (fun _ _ _ hw _ => hw)
          (checkSaw (r := .updated false) hat (fun w hinv hw hvalid => ?_) ?_
            (ret hat.steady fun w _ hhas _ => ⟨hcached, hhas⟩))
          (ret hat.steady fun w _ hhas _ => ⟨hcached, hhas⟩)
        · have hlinked := (Tree.deref_eq_some_iff.mp (hw.toLeafAt.linked (t := t) hinv (.inl hvalid))).1
          rw [← (ArtKey.cmp_eq_zero_iff k k').mp heq] at hlinked
          exact ⟨u', node.addr, hlinked⟩
        · exact resetLeaf hcached
      · exact splitLeaf hgood hkK hcached (fun heq => hne ((ArtKey.cmp_eq_zero_iff k k').mpr heq)) hdepth
      · obtain ⟨⟨hlooks, hbegun⟩, -, hleaf⟩ := hw
        have hlen := (hlooks.below hleaf).length_le
        rw [hlooks.depth_eq] at hlen
        exact ⟨hlen, { hlooks with leafSite := rfl, leafBegun := hbegun, mem := hleaf }⟩
    · refine of_imp (readPrefix (Lasting.const True) rfl hinode fun len hlen =>
        readPrefix (Lasting.const True) rfl hinode fun shared _ => ite (fun hlt => ?_) fun hge => ?_)
        fun w hinv _ hw => ⟨hw.1.atNode hinv rfl hw.2 hinode, trivial⟩
      all_goals
        have hcap : len ≤ keyPrefixCapacity := by
          obtain ⟨n, rfl⟩ := hlen
          exact n.keyPrefix.length_le_capacity
      · exact of_imp (splitPrefix hgood hkK hcached hinode (fun n hn => ⟨hn.1.2, hn.2⟩) hlt hcap)
          fun w _ _ hw => hw.1
      -- The lengths of two prefixes: the assertion fails, which the specification allows.
      · by_cases heq : shared = len
        swap
        · rw [assertThat, if_neg heq]
          exact throw ⟨.inr rfl, fun hexc => absurd hexc Bool.false_ne_true⟩
        rw [assertThat_pos heq]
        refine lift ⟨(), rfl⟩ fun _ _ => lift (htotal.shiftRight rem hcap) fun rem1 hrem1 =>
          lift (htotal.byteAt rem1) fun b hb =>
          bind (of_imp (addOrChooseSubtree hgood hkK hcached hinode (fun n hn => ⟨hn.1.2, hn.2⟩) hge hrem1
            hb) fun w _ _ hw => hw.1) fun r w hinv hr => ?_
        cases r with
        | restart cachedLeaf =>
          exact ret (Lasting.const True).steady (fun w _ hhas _ => ⟨hr.1, hhas⟩) hinv hr.2 trivial
        | added => exact ret (Lasting.const True).steady (fun w _ hhas _ => hhas) hinv hr trivial
        | child childInParent =>
          obtain ⟨ci, i, rfl, hat, hhas⟩ := hr
          refine insertChild hgood hkK hcached htotal (f := fun child rem2 => OlcDb.insertLoop t k v
            cachedLeaf fuel child (.child node.addr i) ⟨.node node.addr, version⟩ (depth + len + 1) rem2)
            (fun n hn => ⟨hn.1.2, hn.2⟩) hge hrem1 hb hinode (fun child rem2 => ih (by omega)) hinv hhas
            hat

theorem tryInsert (htotal : ArtKey.Total κ) :
    Meets K t (.begin (.insert (ArtKey.getKeyView k) v) (.leaf (ArtKey.getKeyView k) v) cachedLeaf)
      (fun _ : World sizes => True) (OlcDb.tryInsert t k v cachedLeaf)
      (Attempted t (.insert (ArtKey.getKeyView k) v) (.leaf (ArtKey.getKeyView k) v)) := by
  rw [OlcDb.tryInsert]
  refine tryReadLock (Lasting.const True) (fun w _ => w.knownSite_root)
    (ret (Lasting.const True).steady fun w _ hhas _ => ⟨hcached, hhas⟩) fun version => ?_
  have hbegun : Lasting K t (_ : World sizes → Prop) :=
    (Lasting.const (K := K) (t := t) True).and (lasting_begun ⟨.root, version⟩)
  refine loadRoot hbegun (fun _ hw => hw.2) fun root => ?_
  have hroot : Lasting K t (_ : World sizes → Prop) := lasting_atRoot t version root
  cases root with
  | none =>
    refine createLeafIfNeeded hroot hcached fun x => ?_
    refine writeGuard hroot (fun _ hw => hw.begun) ?_ (ret hroot.steady fun w _ hhas _ => .restart hhas)
    have hclean : Lasting K t (_ : World sizes → Prop) := lasting_clean (⟨.root, version⟩ : CriticalSection)
    refine storeSlot (hroot.and hclean).steady (fun w hinv hhas hw => ?_)
      (unlock hclean (List.Perm.refl _) rfl (fun _ _ hlive hw => hw.2 hlive)
        (ret hclean.steady fun w _ hhas _ => hhas))
    have hheld := (hhas.locks _).mpr List.mem_cons_self
    obtain ⟨tree, path, hc, hcleaned⟩ := commit_insertRoot hinv hhas rfl rfl hkK rfl rfl hheld
      (hw.1.root (.inr hheld))
    exact ⟨_, tree, path, hc, hc.begun hinv hw.1.begun, fun _ => hcleaned⟩
  | some node =>
    refine check hroot.steady (fun _ _ _ hw _ => hw.looks)
      (insertLoop hgood hkK hcached htotal _ ?_) (ret hroot.steady fun w _ hhas _ => ⟨hcached, hhas⟩)
    rw [LawfulArtKey.size_eq]
    exact Nat.lt_succ_self _

end Loop

end Node

end Meets

end OlcDb

end Unodb
