import Unodb.Olc.Updates

/-!
# A removal among other threads

Whatever the others do, an attempt of `remove_internal` changes the tree in one action, by which it
drops the key, or finds the key absent, or leaves everything as it was.
-/

open Arrays

namespace Unodb

namespace World

variable {κ : Type} [LawfulArtKey κ] {K : Set (List UInt8)} {w w' : World sizes} {t : Nat}
  {key u : List UInt8} {parentCs nodeCs childCs : CriticalSection} {sl : Slot}
  {slot : Radix.Slot NodePtr UInt8} {node child : NodePtr} {depth ci i : Nat} {rem : κ}
  {P N : INode NodePtr → Prop} {b : UInt8} {n : INode NodePtr} {body : Body} {min : Bool}

/-! ## 1. The leaf of the key -/

/-- What the loop has read of the children of a node below which it has found the leaf. -/
def HasChild (b : UInt8) (ci i : Nat) (child : NodePtr) (n : INode NodePtr) : Prop :=
  n.findChild b = some (ci, i) ∧ n.slot i = some child

theorem HasChild.child_eq (h : HasChild b ci i child n) (hwf : n.WF) : n.child b = some child :=
  kids_child hwf h.1 h.2

/-- The leaf is linked below the node while the section of the node is valid or upgraded. -/
theorem AtNode.victim (h : w.AtNode t key parentCs sl slot node depth rem nodeCs P N)
    (hinv : Inv K w) {k' : List UInt8} (hleaf : w.LeafAt childCs child k' u)
    (hN : ∀ n, N n → HasChild b ci i child n) (hlive : w.Live t nodeCs) :
    ∃ n, w.tree.deref node = some (.inode n) ∧ N n ∧ n.child b = some child ∧
      w.tree.deref child = some (.leaf k' u) := by
  obtain ⟨n, hn, hNn⟩ := h.kids hlive
  have hb := (hN n hNn).child_eq (hinv.tree.wf (Tree.deref_eq_some_iff.mp hn).1)
  have hread : w.tree.graph.read (.child node b) = some child := by
    rw [Tree.graph_read_child hn, hb]
  obtain ⟨body, hbody⟩ := hinv.tree_of_read hread
  refine ⟨n, hn, hNn, hb, hinv.leaf_of_mem hleaf.mem ?_⟩
  rw [(Tree.deref_eq_some_iff.mp hbody).1]
  simp

/-- The loop has loaded a child while the section of its node was valid. -/
structure Loaded (w : World sizes) (t : Nat) (key : List UInt8) (parentCs : CriticalSection)
    (node : NodePtr) (b : UInt8) (depth : Nat) (rem : κ) (child : NodePtr) : Prop where
  holder : w.Known node
  known : w.Known child
  below : ∀ {k' u'}, w.db.mem.deref child = some (.leaf k' u') → w.path node ++ [b] <+: k'
  begun : w.Begun parentCs
  passed : w.Live t parentCs → w.Passed key node b depth rem

theorem lasting_loaded (t : Nat) (key : List UInt8) (parentCs : CriticalSection) (node : NodePtr)
    (b : UInt8) (depth : Nat) (rem : κ) (child : NodePtr) :
    Lasting K t fun w : World sizes => w.Loaded t key parentCs node b depth rem child := by
  intro w w' hinv hinv' hkeeps h
  obtain ⟨hnode, hpath, -⟩ := hkeeps.known h.holder
  obtain ⟨hchild, -, hleaf⟩ := hkeeps.known h.known
  refine ⟨hnode, hchild, fun hmem => ?_, lasting_begun parentCs hinv hinv' hkeeps h.begun,
    fun hlive => lasting_passed key node b depth rem hinv hinv' hkeeps
      (h.passed ((hkeeps.lock h.begun.atLeast).2 hlive))⟩
  rw [hpath]
  exact h.below (h.known.leaf_of hleaf hmem)

/-- The thread has made a node and a leaf below it obsolete, and has the lock of the place. -/
structure Taken (w : World sizes) (t : Nat) (parentCs : CriticalSection) (sl : Slot)
    (slot : Radix.Slot NodePtr UInt8) (node : NodePtr) (n : INode NodePtr) (body : Body)
    (child : NodePtr) (key u : List UInt8) : Prop where
  begun : w.Begun parentCs
  grip : w.Grip t sl slot node (.inode n) body
  leaf : w.LeafGrip t child key u
  place : w.Tidy t (graphSite slot) fun _ => False
  doomed : w.doomed node.addr = some ⟨t, parentCs⟩
  doomedLeaf : w.doomed child.addr = some ⟨t, parentCs⟩

theorem firm_taken (t : Nat) (parentCs : CriticalSection) (sl : Slot)
    (slot : Radix.Slot NodePtr UInt8) (node : NodePtr) (n : INode NodePtr) (body : Body)
    (child : NodePtr) (key u : List UInt8) :
    Firm K t fun w : World sizes => w.Taken t parentCs sl slot node n body child key u where
  steady _ _ hinv hinv' hframe h :=
    ⟨(lasting_begun parentCs).steady hinv hinv' hframe h.begun,
      (firm_grip t sl slot node _ _).steady hinv hinv' hframe h.grip,
      (firm_leafGrip t child key u).steady hinv hinv' hframe h.leaf,
      (firm_tidy t _ _).steady hinv hinv' hframe h.place,
      hframe.doomed h.doomed, hframe.doomed h.doomedLeaf⟩
  aside _ _ hinv hinv' haside h :=
    ⟨(lasting_begun parentCs).firm.aside hinv hinv' haside h.begun,
      (firm_grip t sl slot node _ _).aside hinv hinv' haside h.grip,
      (firm_leafGrip t child key u).aside hinv hinv' haside h.leaf,
      (firm_tidy t _ _).aside hinv hinv' haside h.place,
      haside.doomed h.doomed, haside.doomed h.doomedLeaf⟩

/-- What is left of it when the thread changes the two nodes below the place, or one of its own. -/
theorem Neutral.taken {body' : Body} (hw : Neutral t w w') (hinv : Inv K w)
    (h : w.Taken t parentCs sl slot node n body child key u)
    (hnode : w'.db.mem.heap node.addr = some body')
    (htype : body'.type = body.type)
    (hpre : ∀ {m'}, body' = .inode m' → ∃ m, body = .inode m ∧ m.keyPrefix = m'.keyPrefix)
    (hleaf : w'.db.mem.heap child.addr = w.db.mem.heap child.addr)
    (hplace : ∀ {slot' p}, graphSite slot' = graphSite slot → slot' ≠ slot →
      w.tree.graph.read slot' = some p → w'.db.mem.heap p.addr = w.db.mem.heap p.addr) :
    w'.Taken t parentCs sl slot node n body' child key u := by
  obtain ⟨hheap, htag⟩ := Tree.deref_eq_some_iff.mp h.grip.mem
  refine ⟨?_, ⟨hw.owns h.grip.place, hw.owns h.grip.own, ?_, ?_, ?_,
    Tree.deref_eq_some_iff.mpr ⟨hnode, htype.trans htag⟩⟩, ⟨hw.owns h.leaf.own, ?_, ?_⟩,
    h.place.of_mem hw.tree (hw.owns h.place.own) (fun _ hX => hX)
      fun {slot' p m'} hslot _ hread hm' => ?_, ?_, ?_⟩
  · refine ⟨fun a ha => ?_, by rw [hw.lock]; exact h.begun.atLeast⟩
    obtain ⟨p, hp, hknown⟩ := h.begun.site a ha
    exact ⟨p, hp, ((hw.frame hinv (Nat.succ_ne_self t)).known hknown).1⟩
  · rw [hw.tree]
    exact h.grip.slotAt
  · rw [hw.tree]
    exact h.grip.read
  · rw [hw.tree]
    exact h.grip.tree
  · rw [hw.tree]
    exact h.leaf.tree
  · rw [Tree.deref, hleaf, ← Tree.deref]
    exact h.leaf.mem
  · by_cases heq : slot' = slot
    · subst heq
      obtain rfl : node = p := Option.some.inj (h.grip.read.symm.trans hread)
      obtain ⟨m, rfl, hm⟩ := hpre (Option.some.inj (hnode.symm.trans hm'))
      exact ⟨m, hheap, hm⟩
    · rw [hplace hslot heq hread] at hm'
      exact ⟨m', hm', rfl⟩
  · rw [hw.doomed]
    exact h.doomed
  · rw [hw.doomed]
    exact h.doomedLeaf

/-- Of the linked nodes only those two are obsolete that the thread is about to unlink. -/
theorem Inv.sibling_not_doomed {kit : Kit} {q : NodePtr} (hinv : Inv K w) (hhas : w.Has t kit)
    (hlinked : kit.linked = [child.addr, node.addr]) (hown : w.Owns t (graphSite slot))
    (hread : w.tree.graph.read slot = some q) (hq : w.tree.deref q = some body)
    (hqn : q.addr ≠ node.addr) (hqc : q.addr ≠ child.addr) : w.doomed q.addr = none := by
  by_contra hcon
  obtain ⟨⟨thread, guard⟩, hd⟩ := Option.ne_none_iff_exists'.mp hcon
  obtain rfl : t = thread := by
    by_contra hne
    have hother := hinv.owns_of_doomed ⟨guard, hd⟩ hread
    exact hown.not_guarded hinv (Ne.symm hne) hother.guarded
  rcases hhas.linked ⟨guard, hd⟩ with hmem | hnone
  · rw [hlinked] at hmem
    simp [hqn, hqc] at hmem
  · exact nomatch hnone.symm.trans (Tree.deref_eq_some_iff.mp hq).1

end World

namespace OlcDb

namespace Meets

open World

variable {α κ : Type} [LawfulArtKey κ] {K : Set (List UInt8)} {t : Nat} {kit : Kit}
  {F : World sizes → Prop} {Q : α → World sizes → Prop} {key u : List UInt8} {request : Request}
  {parentCs nodeCs childCs : CriticalSection} {nodes : List (Nat × Body)}

/-! ## 2. Three write locks -/

/-- The sections of a place, of the node there and of a leaf below it are upgraded, or nothing is. -/
theorem threeGuards {p f : OlcM sizes α} (hF : Lasting K t F) (hparent : ∀ ⦃w⦄, F w → w.Begun parentCs)
    (hnode : ∀ ⦃w⦄, F w → w.Begun nodeCs) (hchild : ∀ ⦃w⦄, F w → w.Begun childCs)
    (hp : Meets K t { request, nodes, locks := [childCs, nodeCs, parentCs] }
      (fun w : World sizes => ((F w ∧ w.CleanAt t parentCs) ∧ w.CleanAt t nodeCs) ∧
      w.CleanAt t childCs) p Q)
    (hf : Meets K t { request, nodes } F f Q) :
    Meets K t { request, nodes } F
      (OlcDb.writeGuard t parentCs >>= fun b => if b = true then
        OlcDb.writeGuard t nodeCs >>= fun b => if b = true then
          OlcDb.writeGuard t childCs >>= fun b => if b = true then p
            else OlcDb.unlock nodeCs.lock >>= fun _ => OlcDb.unlock parentCs.lock >>= fun _ => f
          else OlcDb.unlock parentCs.lock >>= fun _ => f
        else f) Q := by
  have h1 := hF.and (lasting_clean parentCs)
  have h2 := h1.and (lasting_clean nodeCs)
  have hunlock : Meets K t { request, nodes, locks := [parentCs] }
      (fun w : World sizes => F w ∧ w.CleanAt t parentCs) (OlcDb.unlock parentCs.lock >>= fun _ => f) Q :=
    unlock h1 (List.Perm.refl _) rfl (fun w _ hlive hw => hw.2.2 hlive)
      (hf.of_imp fun _ _ _ hw => hw.1)
  refine writeGuard hF hparent (writeGuard h1 (fun _ hw => hnode hw.1) (writeGuard h2
    (fun _ hw => hchild hw.1.1) hp ?_) hunlock) hf
  exact unlock h2 (List.Perm.refl _) rfl (fun w _ hlive hw => hw.2.2 hlive)
    (hunlock.of_imp fun _ _ _ hw => hw.1)

/-- The node and the leaf are made obsolete under the lock of the place. -/
theorem takeBoth {sl : Slot} {slot : Radix.Slot NodePtr UInt8} {node child : NodePtr}
    {n : INode NodePtr} {b : UInt8} {p : OlcM sizes α} (hsite : parentCs.lock = graphSite slot)
    (hnodeSite : nodeCs.lock = .node node.addr) (hchildSite : childCs.lock = .node child.addr)
    (hb : n.child b = some child)
    (hp : Meets K t { request, nodes, locks := [parentCs], linked := [child.addr, node.addr],
                      unretired := [child.addr, node.addr] }
      (fun w : World sizes => w.Taken t parentCs sl slot node n (.inode n) child key u ∧
        w.Tidy t (.node node.addr) fun _ => False) p Q) :
    Meets K t { request, nodes, locks := [childCs, nodeCs, parentCs] }
      (fun w : World sizes => (w.Begun parentCs ∧ w.Grip t sl slot node (.inode n) (.inode n)) ∧
        w.LeafGrip t child key u ∧ w.Tidy t (graphSite slot) (fun _ => False) ∧
        w.Tidy t (.node node.addr) fun _ => False)
      (OlcDb.unlockAndObsolete nodeCs.lock >>= fun _ =>
        OlcDb.unlockAndObsolete childCs.lock >>= fun _ => p) Q := by
  have hfirm : Firm K t (_ : World sizes → Prop) := ((lasting_begun parentCs).firm.and
    (firm_grip t sl slot node (.inode n) (.inode n))).and ((firm_leafGrip t child key u).and
      ((firm_tidy t (graphSite slot) fun _ => False).and
        (firm_tidy t (.node node.addr) fun _ => False)))
  refine unlockAndObsolete parentCs hfirm (List.Perm.swap ..) hnodeSite
    (List.mem_cons_of_mem _ List.mem_cons_self)
    (fun w _ _ hw => ⟨slot, hw.1.2.read, .inl hsite.symm⟩) (fun _ _ _ ha => absurd ha List.not_mem_nil) ?_
  refine unlockAndObsolete parentCs (hfirm.and (firm_doomed node.addr ⟨t, parentCs⟩))
    (List.Perm.refl _) hchildSite List.mem_cons_self (fun w _ _ hw => ⟨.child node b, ?_, .inr
      ⟨node.addr, rfl, hw.2⟩⟩) (fun w hw a ha => ?_) (hp.of_imp fun w _ _ hw => ?_)
  · rw [Tree.graph_read_child hw.1.1.2.tree, hb]
  · rw [List.mem_singleton.mp ha]
    exact hw.2
  · obtain ⟨⟨⟨⟨hbegun, hgrip⟩, hleaf, hplace, hnode⟩, hdoomed⟩, hdoomedLeaf⟩ := hw
    exact ⟨⟨hbegun, hgrip, hleaf, hplace, hdoomed, hdoomedLeaf⟩, hnode⟩

/-! ## 3. A leaf taken from an inner node -/

section Node

variable {sl : Slot} {slot : Radix.Slot NodePtr UInt8} {node child : NodePtr} {depth ci i : Nat}
  {rem : κ} {P N : INode NodePtr → Prop} {b : UInt8} {R : RemoveResult → World sizes → Prop}
  (hnodeSite : nodeCs.lock = .node node.addr) (hchildSite : childCs.lock = .node child.addr)
  (hremoved : ∀ ⦃w⦄, w.Has t { request := .remove key, did := true } → R .removed w)
  (hrestart : ∀ ⦃w⦄, w.Has t { request := .remove key } → R .restart w)
include hnodeSite hchildSite hremoved hrestart

theorem removeChild (hN : ∀ n, N n → HasChild b ci i child n ∧ n.isMinSize = false) :
    Meets K t { request := .remove key }
      (fun w : World sizes => w.AtNode t key parentCs sl slot node depth rem nodeCs P N ∧
        w.LeafAt childCs child key u)
      (OlcDb.removeChild t node ci child parentCs nodeCs childCs) R := by
  have hat : Lasting K t (_ : World sizes → Prop) :=
    (lasting_atNode t key parentCs sl slot node depth rem nodeCs P N).and
    (lasting_leafAt childCs child key u)
  have hlocked := hat.and (lasting_clean nodeCs)
  have hboth := hlocked.and (lasting_clean childCs)
  have hretry : ∀ {F : World sizes → Prop}, Lasting K t F → Meets K t { request := .remove key } F
      (pure .restart) R := fun hF => ret hF.steady fun w _ hhas _ => hrestart hhas
  rw [OlcDb.removeChild]
  refine check hat.steady (fun _ _ _ hw _ => hw) (writeGuard hat (fun _ hw => hw.1.nodeBegun)
    (writeGuard hlocked (fun _ hw => hw.1.2.leafBegun) ?_ (unlock hlocked (List.Perm.refl _) rfl
      (fun w _ hlive hw => hw.2.2 hlive) (hretry hlocked))) (hretry hat)) (hretry hat)
  refine unlockAndObsolete nodeCs hboth.firm (List.Perm.refl _) hchildSite
    List.mem_cons_self (fun w hinv hhas hw => ⟨.child node b, ?_, .inl hnodeSite.symm⟩)
    (fun _ _ _ ha => absurd ha List.not_mem_nil) ?_
  · have hlive : w.Live t nodeCs :=
      .inr ((hhas.locks nodeCs).mpr (List.mem_cons_of_mem _ List.mem_cons_self))
    obtain ⟨n, hn, -, hb, -⟩ := hw.1.1.1.victim hinv hw.1.1.2 (fun n hn => (hN n hn).1) hlive
    rw [Tree.graph_read_child hn, hb]
  have hfirm := hboth.firm.and (firm_doomed child.addr ⟨t, nodeCs⟩)
  have hclean : Lasting K t (_ : World sizes → Prop) := (lasting_clean nodeCs).and (lasting_known child)
  -- The leaf is unlinked before or after it is retired.
  have hcommit : ∀ {unretired : List Nat} ⦃w : World sizes⦄, Inv K w → w.Has t
      { request := .remove key, locks := [nodeCs], linked := [child.addr], unretired } →
      ((((w.AtNode t key parentCs sl slot node depth rem nodeCs P N ∧ w.LeafAt childCs child key u) ∧
        w.CleanAt t nodeCs) ∧ w.CleanAt t childCs) ∧ w.doomed child.addr = some ⟨t, nodeCs⟩) →
      ∃ m m' l tree path, w.db.mem.deref node = some (.inode m) ∧ m.remove ci = .ok m' ∧
        Commit K t l w (w.commit t (w.db.mem.set node.addr (some (.inode m'))) tree path) ∧
        (w.commit t (w.db.mem.set node.addr (some (.inode m'))) tree path).CleanAt t nodeCs ∧
        (w.commit t (w.db.mem.set node.addr (some (.inode m'))) tree path).Known child := by
    rintro unretired w hinv hhas ⟨⟨⟨⟨hat, hleaf⟩, hclean⟩, -⟩, hd⟩
    have hheld := (hhas.locks nodeCs).mpr List.mem_cons_self
    obtain ⟨n, hn, hNn, hb, hc⟩ := hat.victim hinv hleaf (fun n hn => (hN n hn).1) (.inr hheld)
    obtain ⟨⟨hfind, -⟩, hmin⟩ := hN n hNn
    obtain ⟨m, hm⟩ := hinv.mem_inode hn
    obtain ⟨hcount, hlayout⟩ := hinv.mem_of_live hnodeSite (.inr hheld) hn hm
    have hwf := hinv.tree.wf (Tree.deref_eq_some_iff.mp hn).1
    have hmwf : m.WF := hwf.of_kids hcount hlayout
    have hmfind : m.findChild b = some (ci, i) := by
      rw [INode.findChild_of_kids hcount hlayout]
      exact hfind
    have hdeg : m.type.minSize < degree m.child := by
      rw [INode.type_of_layout hlayout, INode.child_of_kids hcount hlayout]
      refine Nat.lt_of_le_of_ne hwf.minSize_le fun heq => ?_
      rw [hwf.isMinSize_iff.mpr heq.symm] at hmin
      cases hmin
    have hmin2 : 2 ≤ m.type.minSize := by
      cases htype : m.type with
      | leaf => exact absurd htype m.type_ne_leaf
      | _ => decide
    obtain ⟨m', hm', hrep, hpre, htype⟩ := hmwf.remove hmfind hdeg
    have hsiteClean : w.Clean nodeCs.lock := hclean.2 (.inr hheld)
    rw [hnodeSite] at hheld hsiteClean
    obtain ⟨tree, path, hcom, hcleaned⟩ := commit_removeLeaf hinv hhas rfl rfl hn hb hc rfl rfl
      ⟨_, hd⟩ hheld hsiteClean hm hrep hpre htype (Nat.lt_of_le_of_lt hmin2 hdeg)
    exact ⟨m, m', _, tree, path, hm, hm', hcom, ⟨hcom.begun hinv hat.nodeBegun,
      fun _ => hnodeSite ▸ hcleaned⟩, hcom.known hinv hleaf.known⟩
  refine ite (fun _ => ?_) fun _ => ?_
  · refine onNextEpochDeallocate hfirm (List.Perm.refl _) (fun w _ hw => hw.1.1.1.2.known) ?_
    refine updateInode (G := fun w => w.CleanAt t nodeCs ∧ w.Known child) hfirm.steady
      (fun w hinv hhas hw => hcommit hinv hhas hw) ?_
    refine unlock hclean (List.Perm.refl _) rfl (fun w _ hlive hw => hw.1.2 hlive) ?_
    exact ret hclean.steady fun w _ hhas _ => hremoved hhas
  · refine updateInode (G := fun w => w.CleanAt t nodeCs ∧ w.Known child) hfirm.steady
      (fun w hinv hhas hw => hcommit hinv hhas hw) ?_
    refine onNextEpochDeallocate hclean.firm (List.Perm.refl _) (fun w _ hw => hw.2) ?_
    refine unlock hclean (List.Perm.refl _) rfl (fun w _ hlive hw => hw.1.2 hlive) ?_
    exact ret hclean.steady fun w _ hhas _ => hremoved hhas

/-! ## 4. A node taken away with its leaf -/

section Taken

variable (hsite : parentCs.lock = graphSite slot)
include hsite

omit hremoved hrestart in
/-- The node and the leaf are obsolete, or the attempt is given up. -/
theorem takeNode (hN : ∀ n, N n → HasChild b ci i child n) {p f : OlcM sizes RemoveResult}
    (hp : ∀ n : INode NodePtr, n.WF → n.type = node.type → P n → N n → n.child b = some child →
      Meets K t { request := .remove key, nodes, locks := [parentCs],
                  linked := [child.addr, node.addr], unretired := [child.addr, node.addr] }
        (fun w : World sizes => w.Taken t parentCs sl slot node n (.inode n) child key u ∧
          w.Tidy t (.node node.addr) fun _ => False) p R)
    (hf : Meets K t { request := .remove key, nodes }
      (fun w : World sizes => w.AtNode t key parentCs sl slot node depth rem nodeCs P N ∧
        w.LeafAt childCs child key u) f R) :
    Meets K t { request := .remove key, nodes }
      (fun w : World sizes => w.AtNode t key parentCs sl slot node depth rem nodeCs P N ∧
        w.LeafAt childCs child key u)
      (OlcDb.writeGuard t parentCs >>= fun b => if b = true then
        OlcDb.writeGuard t nodeCs >>= fun b => if b = true then
          OlcDb.writeGuard t childCs >>= fun b => if b = true then
              OlcDb.unlockAndObsolete nodeCs.lock >>= fun _ =>
                OlcDb.unlockAndObsolete childCs.lock >>= fun _ => p
            else OlcDb.unlock nodeCs.lock >>= fun _ => OlcDb.unlock parentCs.lock >>= fun _ => f
          else OlcDb.unlock parentCs.lock >>= fun _ => f
        else f) R := by
  have hat : Lasting K t (_ : World sizes → Prop) :=
    (lasting_atNode t key parentCs sl slot node depth rem nodeCs P N).and
    (lasting_leafAt childCs child key u)
  refine threeGuards hat (fun _ hw => hw.1.begun) (fun _ hw => hw.1.nodeBegun)
    (fun _ hw => hw.2.leafBegun) ?_ hf
  refine of_imp (G := fun w => ∃ n : INode NodePtr,
    (n.WF ∧ n.type = node.type ∧ P n ∧ N n ∧ n.child b = some child) ∧
    (w.Begun parentCs ∧ w.Grip t sl slot node (.inode n) (.inode n)) ∧
      w.LeafGrip t child key u ∧ w.Tidy t (graphSite slot) (fun _ => False) ∧
      w.Tidy t (.node node.addr) fun _ => False)
    (of_exists fun n => of_pure fun hn => takeBoth hsite hnodeSite hchildSite hn.2.2.2.2
      (hp n hn.1 hn.2.1 hn.2.2.1 hn.2.2.2.1 hn.2.2.2.2)) fun w hinv hhas hw => ?_
  obtain ⟨⟨⟨⟨hat, hleaf⟩, hparentClean⟩, hnodeClean⟩, -⟩ := hw
  have hlocked : ∀ cs ∈ [childCs, nodeCs, parentCs], w.db.lock cs.lock = .locked cs.version t :=
    fun cs hcs => (hhas.locks cs).mpr hcs
  have hplace := hlocked parentCs (by simp)
  have hnode := hlocked nodeCs (by simp)
  obtain ⟨n, hgrip, hPn, hNn⟩ := hat.grip hinv hparentClean hplace hnode
  obtain ⟨n', hn', -, hb, hc⟩ := hat.victim hinv hleaf hN (.inr hnode)
  cases hgrip.tree.symm.trans hn'
  obtain ⟨hheap, htag⟩ := Tree.deref_eq_some_iff.mp hgrip.tree
  have hparentTidy := hparentClean.tidy hinv hplace
  have hnodeTidy := hnodeClean.tidy hinv hnode
  rw [hsite] at hparentTidy
  rw [hnodeSite] at hnodeTidy
  refine ⟨n, ⟨hinv.tree.wf hheap, htag, hPn, hNn, hb⟩, ⟨hat.begun, hgrip⟩, ⟨?_, hc, hleaf.mem⟩,
    hparentTidy, hnodeTidy⟩
  rw [← hchildSite]
  exact .inl ⟨_, hlocked childCs (by simp)⟩

omit hnodeSite hchildSite hrestart in
/-- The other child of a two-child node is stored at the place. -/
theorem storeOther {F : World sizes → Prop} {n : INode NodePtr} {body : Body} {q : NodePtr}
    (hF : Firm K t F)
    (htaken : ∀ ⦃w⦄, F w → w.Taken t parentCs sl slot node n body child key u)
    (hcommit : ∀ ⦃w : World sizes⦄, Inv K w → w.Has t
        { request := .remove key, locks := [parentCs], linked := [child.addr, node.addr],
          unretired := [node.addr] } → F w → ∃ tree path,
      Commit K t (graphSite slot) w (w.commit t (w.db.mem.store sl q) tree path) ∧
        (w.commit t (w.db.mem.store sl q) tree path).Clean (graphSite slot)) :
    Meets K t { request := .remove key, locks := [parentCs], linked := [child.addr, node.addr],
                unretired := [child.addr, node.addr] } F
      (OlcDb.onNextEpochDeallocate t child >>= fun _ => OlcDb.storeSlot sl q >>= fun _ =>
        OlcDb.onNextEpochDeallocate t node >>= fun _ => OlcDb.unlock parentCs.lock >>= fun _ =>
          OlcDb.accountShrinkingInode node.type >>= fun _ => pure .removed) R := by
  have hclean : Lasting K t (_ : World sizes → Prop) := (lasting_clean parentCs).and (lasting_known node)
  refine onNextEpochDeallocate hF (List.Perm.refl _)
    (fun w hinv hw => hinv.known (htaken hw).leaf.tree) ?_
  refine storeSlot (G := fun w => w.CleanAt t parentCs ∧ w.Known node) hF.steady
    (fun w hinv hhas hw => ?_) ?_
  · obtain ⟨tree, path, hc, hcleaned⟩ := hcommit hinv hhas hw
    have hknown := hinv.known (htaken hw).grip.tree
    exact ⟨_, tree, path, hc, ⟨hc.begun hinv (htaken hw).begun, fun _ => hsite ▸ hcleaned⟩,
      hc.known hinv hknown⟩
  refine onNextEpochDeallocate hclean.firm (List.Perm.refl _) (fun w _ hw => hw.2) ?_
  refine unlock hclean (List.Perm.refl _) rfl (fun w _ hlive hw => hw.1.2 hlive) ?_
  refine account (f := fun st => st.shrunk node.type) hclean.firm (fun _ => rfl) (fun _ => rfl) ?_
  exact ret hclean.steady fun w _ hhas _ => hremoved hhas

theorem collapseInode (hgood : GoodKeys K)
    (hN : ∀ n, N n → HasChild b ci i child n ∧ n.isMinSize = true) (htype : node.type = .i4) :
    Meets K t { request := .remove key }
      (fun w : World sizes => w.AtNode t key parentCs sl slot node depth rem nodeCs P N ∧
        w.LeafAt childCs child key u)
      (OlcDb.collapseInode t node ci child sl parentCs nodeCs childCs) R := by
  have hat : Lasting K t (_ : World sizes → Prop) :=
    (lasting_atNode t key parentCs sl slot node depth rem nodeCs P N).and
    (lasting_leafAt childCs child key u)
  rw [OlcDb.collapseInode]
  -- With the place of the node, the node and the leaf under their locks.
  refine takeNode hnodeSite hchildSite hsite (fun n hn => (hN n hn).1)
    (fun n hwf htag _ hNn hb => ?_) (ret hat.steady fun w _ hhas _ => hrestart hhas)
  obtain ⟨⟨hfind, -⟩, hmin⟩ := hN n hNn
  have h4 : n.type = .i4 := htag.trans htype
  have hdeg : degree n.child = 2 := by
    rw [hwf.isMinSize_iff.mp hmin, h4]
    rfl
  -- The node has two children: the leaf, and the one that is left over.
  obtain ⟨b', q, hlast, hbb, hb', honly⟩ := hwf.lastChild hfind h4 hdeg
  have htaken : Firm K t (_ : World sizes → Prop) :=
    firm_taken t parentCs sl slot node n (.inode n) child key u
  have htidy : Firm K t (_ : World sizes → Prop) := firm_tidy t (.node node.addr) fun _ => False
  -- A leaf takes the place of the node as it is.
  by_cases hq : q.type = .leaf
  · refine aside (G := fun r w => r = q ∧ w.Taken t parentCs sl slot node n (.inode n) child key u)
      (htaken.and htidy).steady (fun w hinv hhas hw => ⟨q, w, fun c => ?_, .refl hinv t, hhas, rfl,
        hw.1⟩) fun r => of_pure fun hr => hr ▸ storeOther hremoved hsite htaken (fun _ hw => hw) ?_
    · rw [Tree.readInode_ok hw.1.grip.mem]
      simp only [Bind.bind, Except.bind, hlast, if_neg (not_not.mpr hq)]
      rfl
    · intro w hinv hhas hw
      have hread : w.tree.graph.read (.child node b') = some q := by
        rw [Tree.graph_read_child hw.grip.tree, hb']
      obtain ⟨k', u', hleaf, -⟩ := hinv.tree.leaf_of_tag hread hq
      have hheld := (hhas.locks parentCs).mpr List.mem_cons_self
      rw [hsite] at hheld
      exact commit_collapse hinv hhas rfl rfl hw.grip.tree hb hw.leaf.tree rfl ⟨_, hw.doomedLeaf⟩
        ⟨_, hw.doomed⟩ hheld hw.grip.slotAt hw.grip.read hw.place.clean rfl hb' hbb honly hleaf
  -- The other child is an inner node, whose prefix goes on with that of the node.
  refine of_imp (G := fun w => ∃ keyPrefix : KeyPrefix,
    keyPrefix.length + n.keyPrefix.length < keyPrefixCapacity ∧
    w.Taken t parentCs sl slot node n (.inode n) child key u ∧
      w.Prefixed t (.child node b') q keyPrefix keyPrefix)
    (of_exists fun keyPrefix => of_pure fun hfit => ?_) fun w hinv hhas hw => ?_
  · obtain ⟨joined, hjoined, hbytes⟩ := KeyPrefix.prepend_spec (b := b') hfit
    refine aside (G := fun r w => r = q ∧ w.Taken t parentCs sl slot node n (.inode n) child key u ∧
        w.Prefixed t (.child node b') q keyPrefix joined)
      (htaken.and (firm_prefixed t (.child node b') q keyPrefix keyPrefix)).steady
      (fun w hinv hhas hw => ?_) fun r => of_pure fun hr => ?_
    · obtain ⟨htaken, hprefixed⟩ := hw
      -- The prefix is written; nothing else that the proof relies on lies in that node.
      obtain ⟨m, hm, hkp⟩ := hprefixed.mem
      obtain ⟨m0, hm0, -⟩ := hprefixed.tree
      have hknown := hinv.known hm0
      have hqn : q.addr ≠ node.addr :=
        hinv.tree.addr_ne_child htaken.grip.tree hprefixed.read hm0
      have hqc : q.addr ≠ child.addr := Tree.addr_ne_of_leaf_inode hm0 htaken.leaf.tree
      have hnot : q.addr ∉ w.db.retired.map (·.2.addr) :=
        hinv.not_retired (hinv.sibling_not_doomed hhas rfl hprefixed.place hprefixed.read hm0 hqn hqc)
      have hneutral := hinv.rewrite_prefix hprefixed.read hprefixed.place
        (.inr ⟨key, hhas.request⟩) hnot
        (Tree.deref_eq_some_iff.mp hm).1 joined
      refine ⟨q, _, fun c => ?_, hneutral, hhas.rewrite_known hinv hknown _, rfl,
        hneutral.taken hinv htaken ?_ rfl (fun hm' => ⟨_, hm', rfl⟩) ?_ ?_, ?_⟩
      · rw [Tree.readInode_ok htaken.grip.mem]
        simp only [Bind.bind, Except.bind, hlast, if_pos hq]
        rw [Tree.readInode_ok hm]
        simp only [hkp, hjoined]
        rfl
      · rw [rewrite_heap, if_neg hqn.symm]
        exact (Tree.deref_eq_some_iff.mp htaken.grip.mem).1
      · rw [rewrite_heap, if_neg hqc.symm]
      · intro slot' p hslot hne hread
        obtain ⟨body, hbody⟩ := hinv.tree_of_read hread
        rw [rewrite_heap, if_neg]
        intro heq
        rw [Tree.deref_addr_inj hbody hm0 heq] at hread
        rw [hinv.tree.graph.slot_unique hread hprefixed.read] at hslot
        exact hinv.ne_place htaken.grip.read hslot.symm
      · refine ⟨hneutral.owns hprefixed.place, hprefixed.read, hprefixed.tree,
          { m with keyPrefix := joined }, Tree.deref_eq_some_iff.mpr ⟨?_, ?_⟩, rfl⟩
        · rw [rewrite_heap, if_pos rfl]
        · exact (Tree.deref_eq_some_iff.mp hm).2
    · subst hr
      refine storeOther hremoved hsite (htaken.and (firm_prefixed t (.child node b') r keyPrefix joined))
        (fun _ hw => hw.1) fun w hinv hhas hw => ?_
      obtain ⟨htaken, hprefixed⟩ := hw
      obtain ⟨m, hm, rfl⟩ := hprefixed.tree
      obtain ⟨m', hm', rfl⟩ := hprefixed.mem
      have hheld := (hhas.locks parentCs).mpr List.mem_cons_self
      rw [hsite] at hheld
      exact commit_collapseInode hinv hhas rfl rfl htaken.grip.tree hb htaken.leaf.tree rfl
        ⟨_, htaken.doomedLeaf⟩ ⟨_, htaken.doomed⟩ hheld htaken.grip.slotAt htaken.grip.read
        htaken.place.clean rfl hb' hbb honly hm hm' hbytes
  · obtain ⟨htaken, htidy⟩ := hw
    have hread : w.tree.graph.read (.child node b') = some q := by
      rw [Tree.graph_read_child htaken.grip.tree, hb']
    obtain ⟨m, hm, -, -⟩ := hinv.tree.inode_of_tag hread hq
    obtain ⟨m', hm'⟩ := hinv.mem_inode hm
    have hpre := htidy.clean rfl hread (Tree.deref_eq_some_iff.mp hm).1
      (Tree.deref_eq_some_iff.mp hm').1
    refine ⟨m.keyPrefix, ?_, htaken, htaken.grip.own, hread, ⟨m, hm, rfl⟩, m', hm', hpre⟩
    refine hinv.tree.joinsFit ?_ _ _ _ _ _ _ _ _ htaken.grip.tree hb htaken.leaf.tree hb' hbb honly hm
    refine hgood.spaced _ fun x hx => ?_
    obtain ⟨⟨v, hx⟩, -⟩ := hx
    obtain ⟨p, hp⟩ := Tree.binds_iff.mpr hx
    exact hinv.tree.graph.key_mem hp

omit hnodeSite hchildSite hremoved hrestart hsite in
/-- The smaller node gets the children that are left; the obsolete one loses the leaf. -/
theorem initSmaller {n n' : INode NodePtr} {z : Nat} {type : NodeType} {keyPrefix : KeyPrefix}
    {unretired : List Nat} {f : Unit → OlcM sizes α} {Q : α → World sizes → Prop}
    (hmem : node.addr ∈ unretired)
    (hn' : n.shrink ci = .ok n') (hpre : n'.keyPrefix = keyPrefix)
    (htype : n'.type = (INode.blank type keyPrefix).type)
    (hk : Meets K t
      { request := .remove key, locks := [parentCs], nodes := [(z, .inode n')],
        linked := [child.addr, node.addr], unretired }
      (fun w : World sizes => w.Taken t parentCs sl slot node n (.inode (n.unlinkChild ci)) child key u ∧
        w.Tidy t (.node node.addr) fun _ => False) (f ()) Q) :
    Meets K t
      { request := .remove key, locks := [parentCs],
        nodes := [(z, .inode (INode.blank type keyPrefix))], linked := [child.addr, node.addr],
        unretired }
      (fun w : World sizes => w.Taken t parentCs sl slot node n (.inode n) child key u ∧
        w.Tidy t (.node node.addr) fun _ => False)
      (OlcDb.initSmaller ⟨z, (INode.blank type keyPrefix).type⟩ node ci >>= f) Q := by
  refine neutral ((firm_taken t parentCs sl slot node n (.inode n) child key u).and
    (firm_tidy t (.node node.addr) fun _ => False)).steady (fun w hinv hhas hw => ?_) fun _ => hk
  obtain ⟨htaken, htidy⟩ := hw
  have hz := hhas.mem List.mem_cons_self
  have hpriv := hhas.priv_of_mem List.mem_cons_self
  have hin := (Tree.deref_eq_some_iff.mp htaken.grip.tree).1
  have hnode := (Tree.deref_eq_some_iff.mp htaken.grip.mem).1
  have hknown := hinv.known htaken.grip.tree
  have hnz : node.addr ≠ z := hknown.ne_own hinv hpriv
  have hcz : child.addr ≠ z := (hinv.known htaken.leaf.tree).ne_own hinv hpriv
  have hnc : node.addr ≠ child.addr := Tree.addr_ne_of_leaf_inode htaken.grip.tree htaken.leaf.tree
  have hunlink := hinv.unlinkChild hhas hmem (by rw [hin]; simp) hnode ci
  have hblank : (w.rewrite node.addr (n.unlinkChild ci)).db.mem.heap z =
      some (.inode (INode.blank type keyPrefix)) := by
    rw [rewrite_heap, if_neg hnz.symm]
    exact hz
  have hneutral := hunlink.rewrite_own hinv hpriv hpriv hblank rfl htype
  have hheap : ∀ x, x ≠ z → x ≠ node.addr →
      ((w.rewrite node.addr (n.unlinkChild ci)).rewrite z n').db.mem.heap x = w.db.mem.heap x := by
    intro x hxz hxn
    rw [rewrite_heap, if_neg hxz, rewrite_heap, if_neg hxn]
  have hother : ∀ {slot' p}, slot' ≠ slot → w.tree.graph.read slot' = some p →
      ((w.rewrite node.addr (n.unlinkChild ci)).rewrite z n').db.mem.heap p.addr =
        w.db.mem.heap p.addr := by
    intro slot' p hne hread
    obtain ⟨body, hbody⟩ := hinv.tree_of_read hread
    refine hheap _ ((hinv.known hbody).ne_own hinv hpriv) fun heq => hne ?_
    rw [Tree.deref_addr_inj hbody htaken.grip.tree heq] at hread
    exact hinv.tree.graph.slot_unique hread htaken.grip.read
  refine ⟨(), _, fun c => ?_, hneutral, (hhas.rewrite_known hinv hknown _).rewrite_own rfl n',
    hneutral.taken hinv htaken ?_ (OlcDb.unlinkChild_type n ci) (fun hm' => ?_)
      (hheap _ hcz hnc.symm) (fun _ => hother), htidy.of_mem rfl (hneutral.owns htidy.own)
        (fun _ h => h) fun {slot' p m} hslot _ hread hm => ?_⟩
  · rw [Tree.readInode_ok (Tree.deref_eq_some_iff.mpr ⟨hz, rfl⟩), Tree.readInode_ok htaken.grip.mem]
    simp only [Bind.bind, Except.bind, hn']
    rw [show { n' with keyPrefix := (INode.blank type keyPrefix).keyPrefix } = n' by
      rw [← hpre]
      rfl]
    rfl
  · rw [rewrite_heap, if_neg hnz, rewrite_heap, if_pos rfl]
  · cases hm'
    exact ⟨n, rfl, rfl⟩
  · rw [hother ?_ hread] at hm
    · exact ⟨m, hm, rfl⟩
    · rintro rfl
      exact hinv.ne_place htaken.grip.read hslot

theorem shrinkInode (hN : ∀ n, N n → HasChild b ci i child n ∧ n.isMinSize = true)
    (hinode : node.type ≠ .leaf) (h4 : node.type ≠ .i4) :
    Meets K t { request := .remove key }
      (fun w : World sizes => w.AtNode t key parentCs sl slot node depth rem nodeCs P N ∧
        w.LeafAt childCs child key u)
      (OlcDb.shrinkInode t node ci child sl parentCs nodeCs childCs) R := by
  rw [OlcDb.shrinkInode]
  refine readPrefix (lasting_leafAt childCs child key u) rfl hinode fun keyPrefix _ => ?_
  have hat : Lasting K t (_ : World sizes → Prop) :=
    (lasting_atNode t key parentCs sl slot node depth rem nodeCs
    (fun n => P n ∧ n.keyPrefix = keyPrefix) N).and (lasting_leafAt childCs child key u)
  rw [OlcDb.makeDbInode, Prog.bind_assoc]
  refine tryMakeDbInode hat (throw ⟨.inl rfl, fun _ => rfl⟩) fun z => ?_
  refine takeNode hnodeSite hchildSite hsite (fun n hn => (hN n hn).1)
    (fun n hwf htag hPn hNn hb => ?_)
    (free (b := .inode _) hat rfl (ret hat.steady fun w _ hhas _ => hrestart hhas))
  obtain ⟨⟨hfind, -⟩, hmin⟩ := hN n hNn
  have hn4 : n.type ≠ .i4 := htag ▸ h4
  have hdeg := hwf.isMinSize_iff.mp hmin
  have hdeg2 : 2 < degree n.child := by
    rw [hdeg]
    cases hty : n.type with
    | leaf => exact absurd hty n.type_ne_leaf
    | i4 => exact absurd hty hn4
    | _ => decide
  obtain ⟨n', hn', hrep, hpre, htype⟩ := hwf.shrink hfind hdeg hn4
  have htype' : n'.type = (INode.blank node.type.smaller keyPrefix).type := by
    rw [htype, htag, blank_type]
    cases node.type <;> simp [NodeType.smaller]
  have htaken : ∀ body, Firm K t fun w : World sizes =>
      w.Taken t parentCs sl slot node n body child key u ∧ w.Tidy t (.node node.addr) fun _ => False :=
    fun body => (firm_taken t parentCs sl slot node n body child key u).and
      (firm_tidy t (.node node.addr) fun _ => False)
  have hclean : Lasting K t (_ : World sizes → Prop) := lasting_clean parentCs
  -- The smaller node is linked once the two others have been retired.
  have hstore : Meets K t
      { request := .remove key, locks := [parentCs], nodes := [(z, .inode n')],
        linked := [child.addr, node.addr], unretired := [node.addr] }
      (fun w : World sizes => w.Taken t parentCs sl slot node n (.inode (n.unlinkChild ci)) child key u ∧
        w.Tidy t (.node node.addr) fun _ => False)
      (OlcDb.onNextEpochDeallocate t node >>= fun _ =>
        OlcDb.storeSlot sl ⟨z, (INode.blank node.type.smaller keyPrefix).type⟩ >>= fun _ =>
          OlcDb.unlock parentCs.lock >>= fun _ =>
            OlcDb.accountShrinkingInode node.type >>= fun _ => pure .removed) R := by
    refine onNextEpochDeallocate (htaken _) (List.Perm.refl _)
      (fun w hinv hw => hinv.known hw.1.grip.tree) ?_
    refine storeSlot (G := fun w => w.CleanAt t parentCs) (htaken _).steady
      (fun w hinv hhas hw => ?_) ?_
    · obtain ⟨htaken, htidy⟩ := hw
      have hheld := (hhas.locks parentCs).mpr List.mem_cons_self
      rw [hsite] at hheld
      obtain ⟨tree, path, hc, hcleaned⟩ := commit_shrinkNode hinv hhas rfl rfl htaken.grip.tree hb
        htaken.leaf.tree rfl ⟨_, htaken.doomedLeaf⟩ ⟨_, htaken.doomed⟩ hheld htaken.grip.slotAt
        htaken.grip.read htaken.place.clean rfl hrep hpre hdeg2 htidy.clean
      rw [htype'] at hc hcleaned
      exact ⟨_, tree, path, hc, hc.begun hinv htaken.begun, fun _ => hsite ▸ hcleaned⟩
    refine unlock hclean (List.Perm.refl _) rfl (fun w _ hlive hw => hw.2 hlive) ?_
    refine account (f := fun st => st.shrunk node.type) hclean.firm (fun _ => rfl) (fun _ => rfl) ?_
    exact ret hclean.steady fun w _ hhas _ => hremoved hhas
  refine ite (fun _ => ?_) fun _ => ?_
  · refine onNextEpochDeallocate (htaken _) (List.Perm.refl _)
      (fun w hinv hw => hinv.known hw.1.leaf.tree) ?_
    exact initSmaller (by simp) hn' (hpre.trans hPn.2) htype' hstore
  · refine initSmaller (by simp) hn' (hpre.trans hPn.2) htype' ?_
    exact onNextEpochDeallocate (htaken _) (List.Perm.refl _)
      (fun w hinv hw => hinv.known hw.1.leaf.tree) hstore

/-- The leaf of the key is removed from its node. -/
theorem removeFound (hgood : GoodKeys K) (hN : ∀ n, N n → HasChild b ci i child n)
    (hinode : node.type ≠ .leaf) :
    Meets K t { request := .remove key }
      (fun w : World sizes => w.AtNode t key parentCs sl slot node depth rem nodeCs P N ∧
        w.LeafAt childCs child key u)
      (OlcDb.reading [nodeCs] node (·.isMinSize) >>= fun isNodeMinSize =>
        if isNodeMinSize then
          if node.type = .i4 then
            OlcDb.collapseInode t node ci child sl parentCs nodeCs childCs
          else OlcDb.shrinkInode t node ci child sl parentCs nodeCs childCs
        else OlcDb.removeChild t node ci child parentCs nodeCs childCs) R := by
  refine readKids (lasting_leafAt childCs child key u) rfl hinode (fun hcount hlayout => ?_)
    fun isNodeMinSize _ => ?_
  · rw [INode.eq_of_kids hcount hlayout]
    rfl
  · refine ite (fun hmin => ite (fun h4 => ?_) fun h4 => ?_) fun hmin => ?_
    · exact collapseInode hnodeSite hchildSite hremoved hrestart hsite hgood
        (fun n hn => ⟨hN n hn.1, hn.2.trans hmin⟩) h4
    · exact shrinkInode hnodeSite hchildSite hremoved hrestart hsite
        (fun n hn => ⟨hN n hn.1, hn.2.trans hmin⟩) hinode h4
    · exact removeChild hnodeSite hchildSite hremoved hrestart
        fun n hn => ⟨hN n hn.1, hn.2.trans (Bool.not_eq_true _ ▸ hmin)⟩

end Taken

end Node

/-! ## 5. The loop -/

/-- What `remove_or_choose_subtree` comes to. -/
def Found (t : Nat) (key : List UInt8) (F : Slot → NodePtr → CriticalSection → World sizes → Prop) :
    RemoveResult → World sizes → Prop
  | .restart, w => w.Has t { request := .remove key }
  | .notFound, w => w.Has t { request := .remove key } ∧ w.Saw t (.updated false)
  | .removed, w => w.Has t { request := .remove key, did := true }
  | .child childInParent child childCs, w =>
    w.Has t { request := .remove key } ∧ F childInParent child childCs w

/-- What an attempt at a removal comes to. -/
def Removed (t : Nat) (key : List UInt8) : Attempt → World sizes → Prop
  | .restart _, w => w.Has t { request := .remove key }
  | .done true, w => w.Has t { request := .remove key, did := true }
  | .done false, w => w.Has t { request := .remove key } ∧ w.Saw t (.updated false)

section Loop

variable {k : κ} {sl : Slot} {slot : Radix.Slot NodePtr UInt8} {node : NodePtr}
  {depth len shared : Nat} {rem rem1 : κ} {P : INode NodePtr → Prop} {b : UInt8}
  (hgood : GoodKeys K) (hkK : ArtKey.getKeyView k ∈ K)
include hgood hkK

theorem removeOrChooseSubtree (hinode : node.type ≠ .leaf)
    (hP : ∀ n, P n → n.keyPrefix.length = len ∧
      n.keyPrefix.getSharedLength (ArtKey.getU64 rem) = shared)
    (hge : ¬ shared < len) (hrem1 : ArtKey.shiftRight rem len = .ok rem1)
    (hb : ArtKey.byteAt rem1 0 = .ok b) :
    Meets K t { request := .remove (ArtKey.getKeyView k) }
      (fun w : World sizes => w.AtNode t (ArtKey.getKeyView k) parentCs sl slot node depth rem
      nodeCs P fun _ => True)
      (OlcDb.removeOrChooseSubtree t node b k parentCs nodeCs sl)
      (Found t (ArtKey.getKeyView k) fun childInParent child childCs w => child.type ≠ .leaf ∧
        ∀ rem2, ArtKey.shiftRight rem1 1 = .ok rem2 → w.AtNode t (ArtKey.getKeyView k) nodeCs
          childInParent (.child node b) child (depth + len + 1) rem2 childCs (fun _ => True)
          fun _ => True) := by
  rw [OlcDb.removeOrChooseSubtree]
  refine of_imp (readKids (Lasting.const True) rfl hinode
    (fun hcount hlayout => by rw [INode.findChild_of_kids hcount hlayout]) fun r _ => ?_)
    fun w _ _ hw => ⟨hw, trivial⟩
  have hread : Lasting K t (_ : World sizes → Prop) :=
    (lasting_atNode t (ArtKey.getKeyView k) parentCs sl slot node depth rem
    nodeCs P (fun n => True ∧ n.findChild b = r)).and (Lasting.const True)
  have hretry : ∀ {F : World sizes → Prop} {R : Slot → NodePtr → CriticalSection → World sizes → Prop},
      Lasting K t F → Meets K t { request := .remove (ArtKey.getKeyView k) } F (pure .restart)
        (Found t (ArtKey.getKeyView k) R) := fun hF => ret hF.steady fun w _ hhas _ => hhas
  cases r with
  | none =>
    -- No child at the byte: the key is absent while both sections are valid.
    refine checkBoth hread rfl (fun _ hw => hw.1.nodeBegun) (fun w hinv hw hparent hnode => ?_)
      (ret (lasting_saw t _).steady fun w _ hhas hw => ⟨hhas, hw⟩) (hretry hread)
    obtain ⟨n, hn, -, hfind⟩ := hw.1.kids hnode
    have hpassed := hw.1.passed hinv hgood hkK hP hge hrem1 hb hparent hnode
    exact hinv.tree.unbound_of_gap (hw.1.read hparent) hw.1.start hn hpassed.next
      (((hinv.tree.wf (Tree.deref_eq_some_iff.mp hn).1).findChild_eq_none_iff b).mp hfind)
  | some r =>
    obtain ⟨ci, i⟩ := r
    refine loadChild (Lasting.const True) rfl hinode i fun child => ?_
    have hloaded : Lasting K t (_ : World sizes → Prop) :=
      (lasting_atNode t (ArtKey.getKeyView k) parentCs sl slot node depth
      rem nodeCs P fun n => (True ∧ n.findChild b = some (ci, i)) ∧ n.slot i = child).and
        (Lasting.const True)
    refine check (G := fun w => ∃ c, child = some c ∧ w.AtNode t (ArtKey.getKeyView k) parentCs sl slot
        node depth rem nodeCs P (fun n => (True ∧ n.findChild b = some (ci, i)) ∧ n.slot i = some c) ∧
        w.Loaded t (ArtKey.getKeyView k) parentCs node b (depth + len) rem1 c)
      hloaded.steady (fun w hinv hhas hw hvalid => ?_) (of_exists fun child => of_pure fun hr => ?_)
      (hretry hloaded)
    · obtain ⟨hat, -⟩ := hw
      -- The child that was loaded is the one at the byte.
      obtain ⟨n, hn, ⟨-, hfind⟩, hslot⟩ := hat.kids (t := t) (.inl hvalid)
      obtain ⟨c, hc, hslot', -⟩ :=
        (hinv.tree.wf (Tree.deref_eq_some_iff.mp hn).1).findChild_eq_some hfind
      obtain rfl : child = some c := hslot.symm.trans hslot'
      have hread : w.tree.graph.read (.child node b) = some c := by
        rw [Tree.graph_read_child hn, hc]
      obtain ⟨body, hbody⟩ := hinv.tree_of_read hread
      exact ⟨c, rfl, hat, hat.known, hinv.known hbody, hinv.below hread, hat.begun, fun hparent =>
        hat.passed hinv hgood hkK hP hge hrem1 hb hparent (.inl hvalid)⟩
    subst hr
    have hat : Lasting K t (_ : World sizes → Prop) :=
      (lasting_atNode t (ArtKey.getKeyView k) parentCs sl slot node depth rem
      nodeCs P fun n => (True ∧ n.findChild b = some (ci, i)) ∧ n.slot i = some child).and
        (lasting_loaded t (ArtKey.getKeyView k) parentCs node b (depth + len) rem1 child)
    refine lift ⟨child, rfl⟩ fun _ hchild => ?_
    obtain rfl := Except.ok.inj hchild
    refine tryReadLock hat (fun w hw a ha => ⟨child, Site.node.inj ha, hw.2.known⟩) (hretry hat)
      fun version => ?_
    have hbegun := hat.and (lasting_begun (⟨.node child.addr, version⟩ : CriticalSection))
    refine ite (fun hctype => ?_) fun hctype => ?_
    -- An inner node, with which the loop goes on.
    · refine check (G := fun w => child.type ≠ .leaf ∧ ∀ rem2, ArtKey.shiftRight rem1 1 = .ok rem2 →
          w.AtNode t (ArtKey.getKeyView k) nodeCs (.child node.addr i) (.child node b) child
            (depth + len + 1) rem2 ⟨.node child.addr, version⟩ (fun _ => True) fun _ => True)
        hbegun.steady (fun w hinv _ hw hvalid => ⟨hctype, fun rem2 hrem2 => ?_⟩) (ret ?_ ?_)
        (hretry hbegun)
      · obtain ⟨⟨hat, hloaded⟩, hbegun⟩ := hw
        have hlooks := (hloaded.passed (.inl hvalid)).looks hinv hat.nodeSite hat.nodeBegun
          (fun hlive => by
            obtain ⟨n, hn, ⟨-, hfind⟩, hslot⟩ := hat.kids hlive
            exact ⟨n, hn, hfind, hslot⟩) hloaded.known hloaded.below hrem2
        exact hlooks.atNode hinv rfl hbegun hctype
      · intro w w' hinv hinv' hframe hw
        exact ⟨hw.1, fun rem2 hrem2 => (lasting_atNode t (ArtKey.getKeyView k) nodeCs _ _ child _ rem2 _
          _ _).steady hinv hinv' hframe (hw.2 rem2 hrem2)⟩
      · exact fun w _ hhas hw => ⟨hhas, hw⟩
    refine readKey hbegun (not_not.mp hctype) (fun _ hw => hw.1.2.known) fun k' u' => ?_
    refine of_imp (F := fun w => _) (G := fun w => (nodeCs.lock = .node node.addr ∧
      parentCs.lock = graphSite slot) ∧ (w.AtNode t (ArtKey.getKeyView k) parentCs sl slot node depth rem
        nodeCs P (fun n => (True ∧ n.findChild b = some (ci, i)) ∧ n.slot i = some child) ∧
        w.LeafAt ⟨.node child.addr, version⟩ child k' u') ∧
          w.Loaded t (ArtKey.getKeyView k) parentCs node b (depth + len) rem1 child)
      (of_pure fun hsites => ite (fun hne => ?_) fun heq => ?_) fun w hinv hhas hw => ?_
    -- The leaf of another key: this one is absent.
    · have hne' : ArtKey.getKeyView k ≠ k' := fun heq => hne ((ArtKey.cmp_eq_zero_iff k k').mpr heq)
      have hleaf : Lasting K t (_ : World sizes → Prop) :=
        (((lasting_atNode t (ArtKey.getKeyView k) parentCs sl slot node depth
        rem nodeCs P fun n => (True ∧ n.findChild b = some (ci, i)) ∧ n.slot i = some child).and
          (lasting_leafAt ⟨.node child.addr, version⟩ child k' u')).and
            (lasting_loaded t (ArtKey.getKeyView k) parentCs node b (depth + len) rem1 child))
      refine checkBoth hleaf rfl (fun _ hw => hw.1.1.nodeBegun) (fun w hinv hw hparent hnode => ?_)
        (check (lasting_saw t _).steady (fun _ _ _ hw _ => hw)
          (ret (lasting_saw t _).steady fun w _ hhas hw => ⟨hhas, hw⟩) (hretry (lasting_saw t _)))
        (hretry hleaf)
      obtain ⟨⟨hat, hleafAt⟩, hloaded⟩ := hw
      obtain ⟨n, hn, -, hb, hc⟩ := hat.victim hinv hleafAt (fun n hn => ⟨hn.1.2, hn.2⟩) hnode
      have hread : w.tree.graph.read (.child node b) = some child := by
        rw [Tree.graph_read_child hn, hb]
      exact hinv.tree.unbound_of_leaf hread (hloaded.passed hparent).next hc hne'
    -- The leaf of the key.
    · obtain rfl := (ArtKey.cmp_eq_zero_iff k k').mp (not_not.mp heq)
      exact of_imp (removeFound hsites.1 rfl (fun _ h => h) (fun _ h => h) hsites.2 hgood
        (fun n hn => ⟨hn.1.2, hn.2⟩) hinode) fun w _ _ hw => hw.1
    · obtain ⟨⟨⟨hat, hloaded⟩, hbegun⟩, -, hmem⟩ := hw
      exact ⟨⟨hat.nodeSite, hat.site.symm⟩, ⟨hat, rfl, hbegun, hloaded.known, hmem⟩, hloaded⟩

theorem removeLoop (htotal : ArtKey.Total κ) (hinode : node.type ≠ .leaf) (fuel : Nat)
    (hfuel : (ArtKey.getKeyView k).length < fuel + depth) :
    Meets K t { request := .remove (ArtKey.getKeyView k) }
      (fun w : World sizes => w.AtNode t (ArtKey.getKeyView k) parentCs sl slot node depth rem
      nodeCs (fun _ => True)
        fun _ => True)
      (OlcDb.removeLoop t k fuel node sl parentCs nodeCs rem)
      (Removed t (ArtKey.getKeyView k)) := by
  induction fuel generalizing node sl slot parentCs nodeCs depth rem with
  | zero =>
    refine of_imp of_false fun w _ _ hw => ?_
    have hlen := hw.start.length_le
    rw [hw.depth_eq] at hlen
    omega
  | succ fuel ih =>
    rw [OlcDb.removeLoop]
    refine of_imp (readPrefix (Lasting.const True) rfl hinode fun len hlen =>
      readPrefix (Lasting.const True) rfl hinode fun shared _ => ite (fun hlt => ?_) fun hge => ?_)
      fun w hinv _ hw => ⟨hw, trivial⟩
    · have hat : Lasting K t (_ : World sizes → Prop) :=
        (lasting_atNode t (ArtKey.getKeyView k) parentCs sl slot node depth rem
        nodeCs (fun n => (True ∧ n.keyPrefix.length = len) ∧
          n.keyPrefix.getSharedLength (ArtKey.getU64 rem) = shared) fun _ => True).and
            (Lasting.const True)
      have hretry : Meets K t { request := .remove (ArtKey.getKeyView k) } _ (pure (.restart none))
          (Removed t (ArtKey.getKeyView k)) :=
        ret hat.steady fun w _ hhas _ => hhas
      refine checkBoth hat rfl (fun _ hw => hw.1.nodeBegun) (fun w hinv hw hparent hnode => ?_)
        (ret (lasting_saw t _).steady fun w _ hhas hw => ⟨hhas, hw⟩) hretry
      obtain ⟨n, hn, -⟩ := hw.1.kids hnode
      obtain ⟨⟨-, rfl⟩, rfl⟩ := hw.1.sure hparent hnode n hn
      exact hinv.tree.unbound_of_prefix (hw.1.read hparent) hw.1.start hn
        ((hw.1.at hparent).not_path_isPrefix hinv.tree (hw.1.read hparent) hn
          (hinv.tree.stays hgood.prefixFree hkK) hlt)
    have hcap : len ≤ keyPrefixCapacity := by
      obtain ⟨n, rfl⟩ := hlen
      exact n.keyPrefix.length_le_capacity
    by_cases heq : shared = len
    swap
    · rw [assertThat, if_neg heq]
      exact throw ⟨.inr rfl, fun _ => rfl⟩
    rw [assertThat_pos heq]
    refine lift ⟨(), rfl⟩ fun _ _ => lift (htotal.shiftRight rem hcap) fun rem1 hrem1 =>
      lift (htotal.byteAt rem1) fun b hb =>
        bind (of_imp (removeOrChooseSubtree hgood hkK hinode (fun n hn => ⟨hn.1.2, hn.2⟩) hge hrem1 hb)
          fun w _ _ hw => hw.1) fun r w hinv hr => ?_
    cases r with
    | restart =>
      exact ret (Lasting.const True).steady (fun w _ hhas _ => hhas) hinv hr trivial
    | notFound =>
      exact ret (lasting_saw t _).steady (fun w _ hhas hw => ⟨hhas, hw⟩) hinv hr.1 hr.2
    | removed => exact ret (Lasting.const True).steady (fun w _ hhas _ => hhas) hinv hr trivial
    | child childInParent child childCs =>
      obtain ⟨hhas, hctype, hat⟩ := hr
      obtain ⟨rem2, hrem2⟩ := htotal.shiftRight rem1 (n := 1) (by decide)
      simp only [hrem2]
      exact ih hctype (by omega) hinv hhas (hat rem2 hrem2)

omit [LawfulArtKey κ] hgood hkK in
/-- The leaf at the root. -/
theorem removeRootLeaf {version : Nat} (hnodeSite : nodeCs.lock = .node node.addr) :
    Meets K t { request := .remove key }
      (fun w : World sizes => w.AtRoot t version (some node) ∧ w.LeafAt nodeCs node key u)
      (OlcDb.removeRootLeaf t node ⟨.root, version⟩ nodeCs)
      (Removed t key) := by
  have hat : Lasting K t (_ : World sizes → Prop) := (lasting_atRoot t version (some node)).and
    (lasting_leafAt nodeCs node key u)
  have hroot := hat.and (lasting_clean (⟨.root, version⟩ : CriticalSection))
  have hboth := hroot.and (lasting_clean nodeCs)
  have hretry : ∀ {F : World sizes → Prop}, Lasting K t F → Meets K t { request := .remove key } F
      (pure (.restart none)) (Removed t key) :=
    fun hF => ret hF.steady fun w _ hhas _ => hhas
  rw [OlcDb.removeRootLeaf]
  refine writeGuard hat (fun _ hw => hw.1.begun) (writeGuard hroot (fun _ hw => hw.1.2.leafBegun) ?_
    (unlock hroot (List.Perm.refl _) rfl (fun w _ hlive hw => hw.2.2 hlive) (hretry hroot)))
    (hretry hat)
  refine unlockAndObsolete ⟨.root, version⟩ hboth.firm (List.Perm.refl _) hnodeSite
    List.mem_cons_self (fun w _ hhas hw => ⟨.root, hw.1.1.1.root (.inr ((hhas.locks _).mpr
      (List.mem_cons_of_mem _ List.mem_cons_self))), .inl rfl⟩)
    (fun _ _ _ ha => absurd ha List.not_mem_nil) ?_
  have hclean : Lasting K t (_ : World sizes → Prop) :=
    (lasting_clean (⟨.root, version⟩ : CriticalSection)).and (lasting_known node)
  refine clearRoot (G := fun w => w.CleanAt t ⟨.root, version⟩ ∧ w.Known node)
    (hboth.firm.and (firm_doomed node.addr ⟨t, ⟨.root, version⟩⟩)).steady
    (fun w hinv hhas hw => ?_) ?_
  · obtain ⟨⟨⟨⟨hat, hleaf⟩, -⟩, -⟩, hd⟩ := hw
    have hheld := (hhas.locks _).mpr List.mem_cons_self
    have hread : w.tree.graph.read .root = some node := hat.root (.inr hheld)
    obtain ⟨body, hbody⟩ := hinv.tree_of_read hread
    have hlinked := hinv.leaf_of_mem hleaf.mem (by rw [(Tree.deref_eq_some_iff.mp hbody).1]; simp)
    obtain ⟨tree, path, hc, hcleaned⟩ := commit_removeRoot hinv hhas rfl rfl rfl rfl ⟨_, hd⟩ hheld
      hread hlinked
    exact ⟨_, tree, path, hc, ⟨hc.begun hinv hat.begun, fun _ => hcleaned⟩,
      hc.known hinv hleaf.known⟩
  refine onNextEpochDeallocate hclean.firm (List.Perm.refl _) (fun w _ hw => hw.2) ?_
  refine unlock hclean (List.Perm.refl _) rfl (fun w _ hlive hw => hw.1.2 hlive) ?_
  exact ret hclean.steady fun w _ hhas _ => hhas

theorem tryRemove (htotal : ArtKey.Total κ) :
    Meets K t { request := .remove (ArtKey.getKeyView k) } (fun _ : World sizes => True)
    (OlcDb.tryRemove t k)
      (Removed t (ArtKey.getKeyView k)) := by
  have hretry : ∀ {F : World sizes → Prop}, Lasting K t F →
      Meets K t { request := .remove (ArtKey.getKeyView k) } F (pure (.restart none))
        (Removed t (ArtKey.getKeyView k)) :=
    fun hF => ret hF.steady fun w _ hhas _ => hhas
  have habsent : Meets K t { request := .remove (ArtKey.getKeyView k) }
      (fun w : World sizes => w.Saw t (.updated false)) (pure (.done false))
      (Removed t (ArtKey.getKeyView k)) :=
    ret (lasting_saw t _).steady fun w _ hhas hw => ⟨hhas, hw⟩
  rw [OlcDb.tryRemove]
  refine tryReadLock (Lasting.const True) (fun w _ => w.knownSite_root) (hretry (Lasting.const True))
    fun version => ?_
  have hbegun : Lasting K t (_ : World sizes → Prop) :=
    (Lasting.const (K := K) (t := t) True).and (lasting_begun ⟨.root, version⟩)
  refine loadRoot hbegun (fun _ hw => hw.2) fun root => ?_
  have hroot : Lasting K t (_ : World sizes → Prop) := lasting_atRoot t version root
  cases root with
  | none =>
    refine checkSaw hroot (fun w hinv hw hvalid => ?_) habsent (hretry hroot)
    exact hinv.tree.unbound_of_empty (hw.root (t := t) (.inl hvalid))
  | some node =>
    -- The root node is a leaf with another key: the key is absent now, while the section is valid.
    have hlate : Lasting K t (_ : World sizes → Prop) :=
      hroot.and (lasting_sawOther t (ArtKey.getKeyView k) node (.updated false))
    refine checkWith (G := fun w => w.AtRoot t version (some node) ∧
      w.Known node ∧ w.SawOther t (ArtKey.getKeyView k) node (.updated false)) hroot.steady
      (fun w hinv hhas hat hvalid => ?_) ?_ (hretry hroot)
    · by_cases hother : ∃ k' v', w.db.mem.deref node = some (.leaf k' v') ∧ ArtKey.getKeyView k ≠ k'
      · obtain ⟨k', v', hleaf, hne⟩ := hother
        have hread : w.tree.graph.read .root = some node := hat.root (.inl hvalid)
        obtain ⟨body, hbody⟩ := hinv.tree_of_read hread
        have hlinked := hinv.leaf_of_mem hleaf (by rw [(Tree.deref_eq_some_iff.mp hbody).1]; simp)
        refine .inr ⟨.updated false, hinv.tree.unbound_of_leaf hread List.nil_prefix hlinked hne, ?_, ?_⟩
        · exact hroot hinv (hinv.withSaw t _) (.withSaw w _) hat
        · exact ⟨hat.known node rfl, fun _ _ => withSaw_saw w t _⟩
      · exact .inl ⟨hat, hat.known node rfl, fun hleaf hne => absurd ⟨_, _, hleaf, hne⟩ hother⟩
    refine tryReadLock hlate (fun w hw a ha => ?_) (hretry hlate) fun nodeVersion => ?_
    · cases ha
      exact ⟨node, rfl, hw.1.known node rfl⟩
    have hlocked : Lasting K t (_ : World sizes → Prop) :=
      hlate.and (lasting_begun ⟨.node node.addr, nodeVersion⟩)
    refine ite (fun hleaf => ?_) fun hinode => ?_
    · refine readKey hlocked hleaf (fun _ hw => hw.1.1.known node rfl) fun key u => ?_
      refine ite (fun heq => ?_) fun hne => ?_
      · obtain rfl := (ArtKey.cmp_eq_zero_iff k key).mp heq
        exact of_imp (removeRootLeaf rfl) fun w _ _ hw =>
          ⟨hw.1.1.1, rfl, hw.1.2, hw.2.1, hw.2.2⟩
      · have hne' : ArtKey.getKeyView k ≠ key := fun heq =>
          hne ((ArtKey.cmp_eq_zero_iff k key).mpr heq)
        refine of_imp (check (lasting_saw t _).steady (fun _ _ _ hw _ => hw) habsent
          (hretry (lasting_saw t _))) fun w _ _ hw => hw.1.1.2.2 hw.2.2 hne'
    · refine of_imp (removeLoop hgood hkK htotal hinode _ ?_) fun w hinv _ hw =>
        hw.1.1.looks.atNode hinv rfl hw.2 hinode
      rw [LawfulArtKey.size_eq]
      exact Nat.lt_succ_self _

end Loop

end Meets

end OlcDb

end Unodb
