import Unodb.Olc.Guards

/-!
# Changes of the tree by a thread that has the locks

The store that links the nodes of a thread's own, and takes those out that it has made obsolete, is
one action.  Each of the structural changes keeps to the rules and makes the update of the thread's
job.
-/

open Arrays

namespace Unodb

namespace Tree

variable {K : Set (List UInt8)} {t t' : Tree} {path : NodePtr → List UInt8} {sl : Slot}
  {slot slot' : Radix.Slot NodePtr UInt8} {p q r : NodePtr}

/-- A pointer is read from what its lock protects. -/
theorem read_congr (hroot : slot = .root → t'.root = t.root)
    (hheap : ∀ a, graphSite slot = .node a → t'.heap a = t.heap a) :
    t'.graph.read slot = t.graph.read slot := by
  cases slot with
  | root => exact hroot rfl
  | child x b =>
    have hx : t'.heap x.addr = t.heap x.addr := hheap x.addr rfl
    refine Option.ext fun p => ?_
    rw [read_child_iff, read_child_iff, deref, deref, hx]

/-- What is read after a store at a place. -/
theorem Inv.read_store (h : t.Inv K path) (hsl : t.SlotAt sl slot) (hread : t.graph.read slot = some p)
    (hq : (t.store sl r).graph.read slot' = some q) :
    q = r ∨ slot' ≠ slot ∧ t.graph.read slot' = some q := by
  rw [h.graph_store hsl, Radix.read_write hread] at hq
  exact hq.imp And.right id

theorem twoChildren_eq_some {b b' c : UInt8} {x : Nat} (h : twoChildren b p b' x c = some q) :
    q = ⟨x, .leaf⟩ ∨ q = p := by
  rw [twoChildren, Function.update_apply, Function.update_apply] at h
  split at h
  · exact .inl (Option.some.inj h).symm
  · split at h
    · exact .inr (Option.some.inj h).symm
    · cases h

end Tree

namespace World

variable {K : Set (List UInt8)} {w w' : World sizes} {t a : Nat} {l l' : Site} {p q r node : NodePtr}
  {sl : Slot} {slot slot' : Radix.Slot NodePtr UInt8} {body : Body} {kit : Kit}
  {n n' m m' : INode NodePtr} {mem tree : Tree} {path : NodePtr → List UInt8} {v x z : Nat}

/-! ## 1. What all changes have in common -/

/-- The world after a change of the tree by which the thread makes its update: the nodes that it had
    for itself are linked. -/
def commit (w : World sizes) (t : Nat) (mem tree : Tree) (path : NodePtr → List UInt8) : World sizes where
  db := { w.db with mem }
  tree := tree
  path := path
  priv a := if w.priv a = some t then none else w.priv a
  doomed := w.doomed
  job := Function.update w.job t { w.job t with did := true }
  insertsOnly := w.insertsOnly

/-- The prefix of the node is right when the tree has become `tree`. -/
inductive Fits (w : World sizes) (t : Nat) (tree : Tree) (p : NodePtr) : Prop where
  | own : w.priv p.addr = some t → Fits w t tree p
  | leaf {k v : List UInt8} : w.db.mem.heap p.addr = some (.leaf k v) → Fits w t tree p
  | old {slot : Radix.Slot NodePtr UInt8} : w.tree.graph.read slot = some p →
      (∀ {n n'}, w.tree.heap p.addr = some (.inode n) → w.db.mem.heap p.addr = some (.inode n') →
        n'.keyPrefix = n.keyPrefix) → Fits w t tree p
  | adjusted {m n : INode NodePtr} : w.db.mem.heap p.addr = some (.inode m) →
      tree.heap p.addr = some (.inode n) → m.keyPrefix = n.keyPrefix → Fits w t tree p

theorem Fits.of_clean (hclean : w.Clean (graphSite slot)) (hread : w.tree.graph.read slot = some p) :
    w.Fits t tree p :=
  .old hread fun hn hn' => hclean rfl hread hn hn'

theorem Fits.of_child {b : UInt8} (hn : w.tree.deref p = some (.inode n))
    (hclean : w.Clean (.node p.addr)) (hb : n.child b = some q) : w.Fits t tree q := by
  have hread : w.tree.graph.read (.child p b) = some q := by rw [Tree.graph_read_child hn, hb]
  exact .of_clean hclean hread

theorem Fits.keyPrefix_eq (h : w.Fits t w'.tree p) (hinv : Inv K w)
    (hstep : CommitStep t l w w' p.addr) (hn : w'.tree.heap p.addr = some (.inode n))
    (hn' : w'.db.mem.heap p.addr = some (.inode n')) : n'.keyPrefix = n.keyPrefix := by
  cases h with
  | own hpriv =>
    have hnone := (hinv.priv hpriv).2.1
    cases hstep with
    | same htree => exact nomatch hn.symm.trans (htree.trans hnone)
    | added _ _ htree hmem =>
      cases htree.symm.trans hn
      cases hmem.symm.trans hn'
      rfl
    | removed _ htree => exact nomatch htree.symm.trans hn
    | adjusted hn0 => exact nomatch hnone.symm.trans hn0
    | site _ hn0 => exact nomatch hnone.symm.trans hn0
  | leaf hleaf =>
    cases hstep with
    | same _ hmem => exact nomatch hn'.symm.trans (hmem.trans hleaf)
    | added _ _ _ hmem hmem' =>
      cases hmem'.symm.trans hleaf
      exact nomatch hn'.symm.trans hmem
    | removed _ htree => exact nomatch htree.symm.trans hn
    | adjusted _ _ _ _ hm => exact nomatch hleaf.symm.trans hm
    | site _ _ _ _ _ hm => exact nomatch hleaf.symm.trans hm
  | old hread hright => exact hstep.clean hinv hread hright hn hn'
  | adjusted hm hn0 hpre =>
    cases hn0.symm.trans hn
    cases hstep with
    | same _ hmem =>
      cases hn'.symm.trans (hmem.trans hm)
      exact hpre
    | added _ _ _ hmem hmem' =>
      cases hmem'.symm.trans hm
      cases hmem.symm.trans hn'
      exact hpre
    | removed _ htree => exact nomatch htree.symm.trans hn
    | adjusted _ _ _ _ _ hmem =>
      cases hn'.symm.trans (hmem.trans hm)
      exact hpre
    | site _ _ _ _ _ hm0 hm' hpre' =>
      cases hm0.symm.trans hm
      cases hm'.symm.trans hn'
      exact hpre'.trans hpre

/-- The places that a lock protects are clean if all that they point to fits. -/
theorem clean_of_fits (hinv : Inv K w) (hstep : ∀ a, CommitStep t l w w' a)
    (hfits : ∀ slot p, graphSite slot = l' → w'.tree.graph.read slot = some p →
      w.Fits t w'.tree p) : w'.Clean l' :=
  fun hslot hread hn hn' => (hfits _ _ hslot hread).keyPrefix_eq hinv (hstep _) hn hn'

theorem Commit.of (hinv : Inv K w) (hhas : w.Has t kit) (hheld : w.db.lock l = .locked v t)
    (htree : tree.Inv K path) (hroot : mem.root = tree.root)
    (hother : l ≠ .root → tree.root = w.tree.root) (hpath : ∀ {p}, w.Known p → path p = w.path p)
    (hnodes : ∀ {a body}, (a, body) ∈ kit.nodes →
      tree.heap a = some body ∧ mem.heap a = some body)
    (hlinked : ∀ {a}, a ∈ kit.linked → w.DoomedBy t a ∧ tree.heap a = none ∧
      mem.heap a = w.db.mem.heap a)
    (hrest : ∀ a, w.priv a ≠ some t → a ∉ kit.linked →
      CommitStep t l w (w.commit t mem tree path) a)
    (hkids : ∀ {a n}, (a, .inode n) ∈ kit.nodes → ∀ b c, n.child b = some c → w.Fits t tree c)
    (heffect : Effect w.tree tree (w.job t).request) (hdid : kit.did = false) :
    Commit K t l w (w.commit t mem tree path) := by
  have hnode : ∀ a, CommitStep t l w (w.commit t mem tree path) a := by
    intro a
    by_cases hpriv : w.priv a = some t
    · obtain ⟨⟨a, body⟩, hmem, rfl⟩ := List.mem_map.mp ((hhas.nodes a).mp hpriv)
      exact .added hpriv (if_pos hpriv) (hnodes hmem).1 (hnodes hmem).2 (hhas.mem hmem)
    · by_cases ha : a ∈ kit.linked
      · obtain ⟨hd, hnone, hsame⟩ := hlinked ha
        exact .removed hd hnone hsame (if_neg hpriv)
      · exact hrest a hpriv ha
  exact {
    tree := htree
    root := hroot
    lock := rfl
    next := rfl
    stats := rfl
    retired := rfl
    doomed := rfl
    held := ⟨v, hheld⟩
    other_root := hother
    path := hpath
    node := hnode
    out := fun {a} hd => by
      rcases hhas.linked hd with hmem | hnone
      · exact (hlinked hmem).2.1
      · have hlive : w.priv a ≠ some t := fun hpriv => by
          obtain ⟨g, hg⟩ := hd
          exact nomatch (hinv.priv hpriv).2.2.1.symm.trans hg
        cases hnode a with
        | same heq => exact heq.trans hnone
        | added hpriv => exact absurd hpriv hlive
        | removed _ hout => exact hout
        | adjusted hn => exact nomatch hnone.symm.trans hn
        | site _ hn => exact nomatch hnone.symm.trans hn
    clean := fun {a} hpriv hin => by
      obtain ⟨⟨a, body⟩, hmem, rfl⟩ := List.mem_map.mp ((hhas.nodes a).mp hpriv)
      refine clean_of_fits hinv hnode fun slot c hslot hread => ?_
      cases slot with
      | root => cases hslot
      | child y b =>
        obtain ⟨n, hn, hc⟩ := Tree.read_child_iff.mp hread
        have hheap := (Tree.deref_eq_some_iff.mp hn).1
        rw [Site.node.inj hslot] at hheap
        cases (hnodes hmem).1.symm.trans hheap
        exact hkids hmem b c hc
    job := .did (hhas.did.trans hdid) (Function.update_self _ _ _) heffect
    request := fun u => by
      by_cases hu : u = t
      · have hself : (w.commit t mem tree path).job t = { w.job t with did := true } :=
          Function.update_self _ _ _
        rw [hu, hself]
      · exact congrArg Job.request (Function.update_of_ne hu _ _)
    other_job := fun u hu => Function.update_of_ne hu _ _
    insertsOnly := rfl }

theorem Has.commit (h : w.Has t kit) (hw : Commit K t l w (w.commit t mem tree path)) :
    (w.commit t mem tree path).Has t { kit with nodes := [], linked := [], did := true } where
  locks := h.locks
  nodupLocks := h.nodupLocks
  nodes a := by
    show (if w.priv a = some t then none else w.priv a) = some t ↔ a ∈ []
    refine iff_of_false ?_ List.not_mem_nil
    split
    · simp
    · assumption
  nodup := List.nodup_nil
  mem := nofun
  linked ha := .inr (hw.out ha)
  unretired := h.unretired
  nodupUnretired := h.nodupUnretired
  request := by
    show (Function.update w.job t _ t).request = _
    rw [Function.update_self]
    exact h.request
  did := by
    show (Function.update w.job t _ t).did = _
    rw [Function.update_self]

theorem Commit.known (hinv : Inv K w) (hw : Commit K t l w w') (hp : w.Known p) : w'.Known p :=
  ((hw.frame hinv (Nat.succ_ne_self t)).known hp).1

theorem Commit.leaf (hinv : Inv K w) (hw : Commit K t l w w') (hp : w.Known p) {k u : List UInt8}
    (hleaf : w.db.mem.deref p = some (.leaf k u)) : w'.db.mem.deref p = some (.leaf k u) :=
  ((hw.frame hinv (Nat.succ_ne_self t)).known hp).2.2 hleaf

theorem Commit.begun {cs : CriticalSection} (hinv : Inv K w) (hw : Commit K t l w w')
    (h : w.Begun cs) : w'.Begun cs := by
  refine ⟨fun a ha => ?_, by rw [hw.lock]; exact h.atLeast⟩
  obtain ⟨p, hp, hknown⟩ := h.site a ha
  exact ⟨p, hp, hw.known hinv hknown⟩

/-! ## 2. A pointer stored at a place -/

theorem Inv.ne_doomed (h : Inv K w) (hd : w.DoomedBy t a) (hheld : w.db.lock l = .locked v t) :
    l ≠ .node a := by
  rintro rfl
  obtain ⟨g, hg⟩ := hd
  exact nomatch hheld.symm.trans ((h.obsolete a).mpr (by rw [hg]; simp))

/-- The lock of a node is not the one that protects the pointer to it. -/
theorem Inv.ne_place (h : Inv K w) (hread : w.tree.graph.read slot = some p) :
    graphSite slot ≠ .node p.addr := by
  cases slot with
  | root => simp [graphSite]
  | child y b =>
    intro heq
    obtain ⟨n, hn, -⟩ := Tree.read_child_iff.mp hread
    obtain ⟨body, hbody⟩ := h.tree_of_read hread
    exact h.tree.addr_ne_child hn hread hbody (Site.node.inj heq).symm

/-- At the other addresses a store changes nothing, at that of the place the same in the tree and in
    memory. -/
theorem CommitStep.of_store (hinv : Inv K w) (hsl : w.tree.SlotAt sl slot)
    (hheld : w.db.lock (graphSite slot) = .locked v t)
    (htree : w'.tree.heap a = (w.tree.store sl r).heap a)
    (hmem : w'.db.mem.heap a = (w.db.mem.store sl r).heap a) (hpriv : w'.priv a = w.priv a) :
    CommitStep t (graphSite slot) w w' a := by
  by_cases hsite : Site.node a = sl.site
  · cases hsl with
    | root => cases hsite
    | @child y n b ci i hderef hfind =>
      obtain ⟨hheap, -⟩ := Tree.deref_eq_some_iff.mp hderef
      cases hsite
      have hdoomed : w.doomed y.addr = none := by
        by_contra hcon
        exact nomatch hheld.symm.trans ((hinv.obsolete y.addr).mpr hcon)
      obtain ⟨body, hbody, -, hkids⟩ := hinv.body hheap
      obtain ⟨m, rfl, hcount, hlayout⟩ := (hkids hdoomed).inode
      simp only [Tree.store, hheap, Function.update_self] at htree
      simp only [Tree.store, hbody, Function.update_self] at hmem
      have heq := INode.eq_of_kids hcount hlayout
      refine .site rfl hheap htree (INode.setSlot_keyPrefix ..) (INode.setSlot_type ..) hbody hmem
        (INode.setSlot_keyPrefix ..) ?_ ?_ hpriv
      · rw [heq]
        cases n with
        | mk pre count layout => cases layout <;> rfl
      · rw [heq]
        cases n with
        | mk pre count layout => cases layout <;> rfl
  · rw [OlcDb.store_heap hsite] at htree hmem
    exact .same htree hmem hpriv

/-- What the place and those under the same lock point to after a store. -/
theorem fits_of_store (hinv : Inv K w) (hsl : w.tree.SlotAt sl slot)
    (hread : w.tree.graph.read slot = some p)
    (hroot : tree.root = (w.tree.store sl r).root)
    (hheap : ∀ a, graphSite slot = .node a → tree.heap a = (w.tree.store sl r).heap a)
    (hr : w.Fits t tree r)
    (hold : ∀ slot' q, graphSite slot' = graphSite slot → slot' ≠ slot →
      w.tree.graph.read slot' = some q → w.Fits t tree q)
    (hslot : graphSite slot' = graphSite slot) (hq : tree.graph.read slot' = some q) :
    w.Fits t tree q := by
  rw [Tree.read_congr (fun _ => hroot) fun a ha => hheap a (hslot ▸ ha)] at hq
  rcases hinv.tree.read_store hsl hread hq with rfl | ⟨hne, hq⟩
  · exact hr
  · exact hold slot' q hslot hne hq

theorem store_root_eq {t t' : Tree} (h : t'.root = t.root) (sl : Slot) (r : NodePtr) :
    (t'.store sl r).root = (t.store sl r).root := by
  by_cases hsl : Site.root = sl.site
  · cases sl with
    | root => rfl
    | child x i => cases hsl
  · rw [OlcDb.store_root hsl, OlcDb.store_root hsl, h]

theorem Inv.ne_site (h : Inv K w) (ha : w.priv a = some t) (hheld : w.db.lock l = .locked v t) :
    l ≠ .node a := by
  rintro rfl
  exact nomatch hheld.symm.trans (h.priv ha).2.2.2

/-- A store at a place whose lock the thread has. -/
theorem Commit.of_store (hinv : Inv K w) (hhas : w.Has t kit)
    (hheld : w.db.lock (graphSite slot) = .locked v t) (hsl : w.tree.SlotAt sl slot)
    (hread : w.tree.graph.read slot = some p) (htree : tree.Inv K path)
    (hpath : ∀ {p}, w.Known p → path p = w.path p)
    (hroot : tree.root = (w.tree.store sl r).root)
    (hnodes : ∀ {a body}, (a, body) ∈ kit.nodes → tree.heap a = some body)
    (hlinked : ∀ {a}, a ∈ kit.linked → w.DoomedBy t a ∧ tree.heap a = none)
    (hsite : ∀ a, graphSite slot = .node a → tree.heap a = (w.tree.store sl r).heap a)
    (hrest : ∀ a, w.priv a ≠ some t → a ∉ kit.linked →
      tree.heap a = (w.tree.store sl r).heap a ∨
        CommitStep t (graphSite slot) w (w.commit t (w.db.mem.store sl r) tree path) a)
    (hkids : ∀ {a n}, (a, .inode n) ∈ kit.nodes → ∀ b c, n.child b = some c → w.Fits t tree c)
    (hr : w.Fits t tree r)
    (hold : ∀ slot' q, graphSite slot' = graphSite slot → slot' ≠ slot →
      w.tree.graph.read slot' = some q → w.Fits t tree q)
    (heffect : Effect w.tree tree (w.job t).request) (hdid : kit.did = false) :
    Commit K t (graphSite slot) w (w.commit t (w.db.mem.store sl r) tree path) ∧
      (w.commit t (w.db.mem.store sl r) tree path).Clean (graphSite slot) := by
  have hmem : ∀ a, graphSite slot ≠ .node a →
      (w.db.mem.store sl r).heap a = w.db.mem.heap a := fun a ha =>
    OlcDb.store_heap (fun heq => ha (hsl.site.symm.trans heq.symm)) r
  have hw : Commit K t (graphSite slot) w (w.commit t (w.db.mem.store sl r) tree path) := by
    refine Commit.of hinv hhas hheld htree ((store_root_eq hinv.root sl r).trans hroot.symm)
      (fun hne => ?_) hpath (fun {a body} ha => ?_) (fun {a} ha => ?_) (fun a hpriv ha => ?_) hkids
      heffect hdid
    · rw [hroot, OlcDb.store_root (by rw [hsl.site]; exact hne.symm)]
    · exact ⟨hnodes ha, (hmem a (hinv.ne_site (hhas.priv_of_mem ha) hheld)).trans (hhas.mem ha)⟩
    · obtain ⟨hd, hnone⟩ := hlinked ha
      exact ⟨hd, hnone, hmem a (hinv.ne_doomed hd hheld)⟩
    · exact (hrest a hpriv ha).elim
        (fun heq => .of_store hinv hsl hheld heq rfl (if_neg hpriv)) id
  exact ⟨hw, clean_of_fits hinv hw.node fun slot' q hslot hq =>
    fits_of_store hinv hsl hread hroot hsite hr hold hslot hq⟩

/-! ## 3. A node changed in place -/

/-- An inner node whose lock the thread has gets other children. -/
theorem Commit.of_update (hinv : Inv K w) (hhas : w.Has t kit)
    (hheld : w.db.lock (.node node.addr) = .locked v t)
    (hn : w.tree.deref node = some (.inode n)) (hm : w.db.mem.heap node.addr = some (.inode m))
    (htree : tree.Inv K path) (hpath : ∀ {p}, w.Known p → path p = w.path p)
    (hroot : tree.root = w.tree.root) (hn' : tree.heap node.addr = some (.inode n'))
    (hpre : n'.keyPrefix = n.keyPrefix) (htype : n'.type = n.type)
    (hpre' : m'.keyPrefix = m.keyPrefix) (hcount : m'.childrenCount = n'.childrenCount)
    (hlayout : m'.layout = n'.layout)
    (hnodes : ∀ {a body}, (a, body) ∈ kit.nodes → tree.heap a = some body)
    (hlinked : ∀ {a}, a ∈ kit.linked → w.DoomedBy t a ∧ tree.heap a = none)
    (hrest : ∀ a, a ≠ node.addr → w.priv a ≠ some t → a ∉ kit.linked →
      tree.heap a = w.tree.heap a)
    (howned : ∀ {a n}, (a, .inode n) ∉ kit.nodes)
    (hkids : ∀ b c, n'.child b = some c → w.Fits t tree c)
    (heffect : Effect w.tree tree (w.job t).request) (hdid : kit.did = false) :
    Commit K t (.node node.addr) w
        (w.commit t (w.db.mem.set node.addr (some (.inode m'))) tree path) ∧
      (w.commit t (w.db.mem.set node.addr (some (.inode m'))) tree path).Clean (.node node.addr) := by
  have hmem : ∀ a, Site.node node.addr ≠ .node a →
      (w.db.mem.set node.addr (some (.inode m'))).heap a = w.db.mem.heap a := fun a ha => by
    rw [Tree.set_heap, if_neg fun heq => ha (congrArg Site.node heq.symm)]
  have hw : Commit K t (.node node.addr) w
      (w.commit t (w.db.mem.set node.addr (some (.inode m'))) tree path) := by
    refine Commit.of hinv hhas hheld htree (hinv.root.trans hroot.symm) (fun _ => hroot) hpath
      (fun {a body} ha => ?_) (fun {a} ha => ?_) (fun a hpriv ha => ?_)
      (fun ha => absurd ha howned) heffect hdid
    · exact ⟨hnodes ha, (hmem a (hinv.ne_site (hhas.priv_of_mem ha) hheld)).trans (hhas.mem ha)⟩
    · obtain ⟨hd, hnone⟩ := hlinked ha
      exact ⟨hd, hnone, hmem a (hinv.ne_doomed hd hheld)⟩
    · by_cases heq : a = node.addr
      · subst heq
        refine .site rfl (Tree.deref_eq_some_iff.mp hn).1 hn' hpre htype hm ?_ hpre' hcount hlayout
          (if_neg hpriv)
        exact (Tree.set_heap ..).trans (if_pos rfl)
      · exact .same (hrest a heq hpriv ha) (hmem a fun hcon => heq (Site.node.inj hcon).symm)
          (if_neg hpriv)
  refine ⟨hw, clean_of_fits hinv hw.node fun slot' q hslot hq => ?_⟩
  cases slot' with
  | root => cases hslot
  | child y b =>
    obtain ⟨n1, hn1, hc⟩ := Tree.read_child_iff.mp hq
    have hheap := (Tree.deref_eq_some_iff.mp hn1).1
    rw [Site.node.inj hslot] at hheap
    cases hn'.symm.trans hheap
    exact hkids b q hc

/-! ## 4. Insertions -/

section Insert

variable {k u k' u' : List UInt8} {b b' : UInt8} (hinv : Inv K w) (hhas : w.Has t kit)
  (hrequest : kit.request = .insert k u) (hdid : kit.did = false) (hk : k ∈ K)
include hinv hhas hrequest hdid hk

omit hdid hk hinv in
theorem Has.effect_insert (hunbound : ∀ v', ¬ w.tree.Binds k v') (hadds : w.tree.Adds tree k u) :
    Effect w.tree tree (w.job t).request := by
  rw [hhas.request, hrequest]
  exact ⟨hunbound, hadds⟩

/-- The first leaf. -/
theorem commit_insertRoot (hnodes : kit.nodes = [(x, .leaf k u)]) (hlinked : kit.linked = [])
    (hheld : w.db.lock .root = .locked v t) (hroot : w.tree.root = none) :
    ∃ tree path, Commit K t .root w (w.commit t (w.db.mem.store .root ⟨x, .leaf⟩) tree path) ∧
      (w.commit t (w.db.mem.store .root ⟨x, .leaf⟩) tree path).Clean .root := by
  have hown : w.priv x = some t := hhas.priv_of_mem (by rw [hnodes]; exact List.mem_cons_self)
  have hx := (hinv.priv hown).2.1
  obtain ⟨htree, hadds⟩ := hinv.tree.insertRoot hroot hk hx u
  have hunbound := hinv.tree.unbound_of_empty (k := k) hroot
  refine ⟨_, _, Commit.of hinv hhas hheld htree rfl (fun hne => absurd rfl hne)
    (fun {p} hp => ?_) (fun {a body} ha => ?_) (fun ha => ?_) (fun a hpriv _ => ?_)
    (fun ha => ?_) (hhas.effect_insert hrequest hunbound hadds) hdid, ?_⟩
  · refine Function.update_of_ne ?_ _ _
    rintro rfl
    exact hp.ne_own hinv hown rfl
  · have hmem := hhas.mem ha
    rw [hnodes, List.mem_singleton] at ha
    obtain ⟨rfl, rfl⟩ := Prod.mk.inj ha
    exact ⟨Function.update_self _ _ _, hmem⟩
  · rw [hlinked] at ha
    cases ha
  · refine .same (Function.update_of_ne ?_ _ _) rfl (if_neg hpriv)
    rintro rfl
    exact hpriv hown
  · rw [hnodes] at ha
    simp at ha
  · intro slot p n n' hslot hread hn
    cases slot with
    | child => cases hslot
    | root =>
      cases Option.some.inj hread
      exact nomatch (Function.update_self x _ _).symm.trans hn

/-- A leaf in an inner node with room for it. -/
theorem commit_addLeaf (hnodes : kit.nodes = [(x, .leaf k u)]) (hlinked : kit.linked = [])
    (hheld : w.db.lock (.node node.addr) = .locked v t) (hclean : w.Clean (.node node.addr))
    (hn : w.tree.deref node = some (.inode n)) (hm : w.db.mem.deref node = some (.inode m))
    (hm' : m'.Rep (Function.update m.child b (some ⟨x, .leaf⟩)))
    (hpre : m'.keyPrefix = m.keyPrefix) (htype : m'.type = m.type) (hb : n.child b = none)
    (hpath : w.path node ++ [b] <+: k) :
    ∃ tree path, Commit K t (.node node.addr) w
        (w.commit t (w.db.mem.set node.addr (some (.inode m'))) tree path) ∧
      (w.commit t (w.db.mem.set node.addr (some (.inode m'))) tree path).Clean
        (.node node.addr) := by
  have hmem : (x, .leaf k u) ∈ kit.nodes := by
    rw [hnodes]
    exact List.mem_cons_self
  have hown := hhas.priv_of_mem hmem
  have hx := (hinv.priv hown).2.1
  have hpx := Tree.heap_ne_of_deref hn hx
  obtain ⟨hheap, -⟩ := Tree.deref_eq_some_iff.mp hn
  have hlive : w.Live t ⟨.node node.addr, v⟩ := .inr hheld
  obtain ⟨hcount, hlayout⟩ := hinv.mem_of_live rfl hlive hn hm
  have hchild := INode.child_of_kids hcount hlayout
  -- What the tree gets has the prefix that the node ought to have.
  have hrep : INode.Rep { m' with keyPrefix := n.keyPrefix }
      (Function.update n.child b (some ⟨x, .leaf⟩)) := by
    rw [hchild] at hm'
    exact hm'.of_kids rfl rfl
  have htype' : INode.type { m' with keyPrefix := n.keyPrefix } = n.type :=
    htype.trans (INode.type_of_layout hlayout)
  obtain ⟨htree, hadds⟩ := hinv.tree.addLeaf hn hb hrep rfl htype' hx hk hpath u
  obtain ⟨slot, hread⟩ := hinv.tree.graph.pointed (Tree.graph_node_inode hn)
  have hunbound := hinv.tree.unbound_of_gap hread
    ((hinv.tree.graph.start_isPrefix hread).trans ((List.prefix_append _ _).trans hpath)) hn hpath hb
  have hnode : (w.tree.addLeaf node { m' with keyPrefix := n.keyPrefix } x k u).heap node.addr =
      some (.inode { m' with keyPrefix := n.keyPrefix }) := (Tree.set_heap ..).trans (if_pos rfl)
  refine ⟨_, _, Commit.of_update hinv hhas hheld hn (Tree.deref_eq_some_iff.mp hm).1 htree
    (fun {p} hp => ?_) rfl hnode rfl htype' hpre rfl rfl (fun {a body} ha => ?_) (fun ha => ?_)
    (fun a hne hpriv _ => ?_) (fun ha => ?_) (fun c q hc => ?_)
    (hhas.effect_insert hrequest hunbound hadds) hdid⟩
  · refine Function.update_of_ne ?_ _ _
    rintro rfl
    exact hp.ne_own hinv hown rfl
  · rw [hnodes, List.mem_singleton] at ha
    obtain ⟨rfl, rfl⟩ := Prod.mk.inj ha
    rw [Tree.addLeaf, Tree.set_heap, if_neg hpx.symm, Tree.set_heap, if_pos rfl]
  · rw [hlinked] at ha
    cases ha
  · rw [Tree.addLeaf, Tree.set_heap, if_neg hne, Tree.set_heap, if_neg]
    rintro rfl
    exact hpriv hown
  · rw [hnodes] at ha
    simp at ha
  · rw [hrep.child_eq, Function.update_apply] at hc
    split at hc
    · cases hc
      exact .own hown
    · exact .of_child hn hclean hc

/-! ### With a new inner node -/

section Pair

variable (hnodes : kit.nodes = [(z, .inode n'), (x, .leaf k u)])
include hnodes

omit hrequest hdid hk in
theorem Has.pair : w.priv z = some t ∧ w.priv x = some t ∧ w.tree.heap z = none ∧
    w.tree.heap x = none ∧ x ≠ z := by
  have hz : w.priv z = some t := hhas.priv_of_mem (by rw [hnodes]; exact List.mem_cons_self)
  have hx : w.priv x = some t :=
    hhas.priv_of_mem (by rw [hnodes]; exact List.mem_cons_of_mem _ List.mem_cons_self)
  refine ⟨hz, hx, (hinv.priv hz).2.1, (hinv.priv hx).2.1, ?_⟩
  have hnodup := hhas.nodup
  rw [hnodes] at hnodup
  simpa [eq_comm] using hnodup

variable (hheld : w.db.lock (graphSite slot) = .locked v t) (hsl : w.tree.SlotAt sl slot)
  (hread : w.tree.graph.read slot = some node)
include hheld hsl hread

omit hk in
/-- A new inner node and a leaf take the place of a node. -/
theorem Commit.of_pair {s : List UInt8}
    (htree : tree.Inv K (Function.update (Function.update w.path ⟨x, .leaf⟩ k) ⟨z, n'.type⟩ s))
    (hadds : w.tree.Adds tree k u) (hunbound : ∀ v', ¬ w.tree.Binds k v')
    (hroot : tree.root = (w.tree.store sl ⟨z, n'.type⟩).root)
    (hz : tree.heap z = some (.inode n')) (hx : tree.heap x = some (.leaf k u))
    (hlinked : ∀ {a}, a ∈ kit.linked → w.DoomedBy t a ∧ tree.heap a = none)
    (hsite : ∀ a, graphSite slot = .node a → tree.heap a = (w.tree.store sl ⟨z, n'.type⟩).heap a)
    (hrest : ∀ a path, w.priv a ≠ some t → a ∉ kit.linked →
      tree.heap a = (w.tree.store sl ⟨z, n'.type⟩).heap a ∨ CommitStep t (graphSite slot) w
        (w.commit t (w.db.mem.store sl ⟨z, n'.type⟩) tree path) a)
    (hkids : ∀ b c, n'.child b = some c → c ≠ ⟨x, .leaf⟩ → w.Fits t tree c)
    (hold : ∀ slot' q, graphSite slot' = graphSite slot → slot' ≠ slot →
      w.tree.graph.read slot' = some q → w.Fits t tree q) :
    ∃ path, Commit K t (graphSite slot) w
        (w.commit t (w.db.mem.store sl ⟨z, n'.type⟩) tree path) ∧
      (w.commit t (w.db.mem.store sl ⟨z, n'.type⟩) tree path).Clean (graphSite slot) := by
  obtain ⟨hownz, hownx, -, -, -⟩ := hhas.pair hinv hnodes
  refine ⟨_, Commit.of_store hinv hhas hheld hsl hread htree (fun {p} hp => ?_) hroot
    (fun {a body} ha => ?_) hlinked hsite (fun a => hrest a _) (fun {a m} ha c q hc => ?_)
    (.own hownz) hold (hhas.effect_insert hrequest hunbound hadds) hdid⟩
  · rw [Function.update_of_ne, Function.update_of_ne]
    · rintro rfl
      exact hp.ne_own hinv hownx rfl
    · rintro rfl
      exact hp.ne_own hinv hownz rfl
  · rw [hnodes] at ha
    rcases List.mem_cons.mp ha with heq | ha
    · obtain ⟨rfl, rfl⟩ := Prod.mk.inj heq
      exact hz
    · obtain ⟨rfl, rfl⟩ := Prod.mk.inj (List.mem_singleton.mp ha)
      exact hx
  · obtain ⟨-, rfl⟩ : a = z ∧ m = n' := by simpa [hnodes] using ha
    by_cases hq : q = ⟨x, .leaf⟩
    · rw [hq]
      exact .own hownx
    · exact hkids c q hc hq

/-- A full node gives way to a larger one with the new leaf. -/
theorem commit_growNode (hlinked : kit.linked = [node.addr]) (hd : w.DoomedBy t node.addr)
    (hn : w.tree.deref node = some (.inode n)) (hb : n.child b = none)
    (hn' : n'.Rep (Function.update n.child b (some ⟨x, .leaf⟩)))
    (hpre : n'.keyPrefix = n.keyPrefix) (hpath : w.path node ++ [b] <+: k)
    (hclean : w.Clean (.node node.addr)) (hsite : w.Clean (graphSite slot)) :
    ∃ tree path, Commit K t (graphSite slot) w
        (w.commit t (w.db.mem.store sl ⟨z, n'.type⟩) tree path) ∧
      (w.commit t (w.db.mem.store sl ⟨z, n'.type⟩) tree path).Clean (graphSite slot) := by
  obtain ⟨hownz, hownx, hz, hx, hxz⟩ := hhas.pair hinv hnodes
  obtain ⟨htree, hadds⟩ := hinv.tree.growNode hsl hread hn hb hn' hpre hx hz hxz hk hpath u
  have hunbound := hinv.tree.unbound_of_gap hread
    ((hinv.tree.graph.start_isPrefix hread).trans ((List.prefix_append _ _).trans hpath)) hn hpath hb
  have hpx := Tree.heap_ne_of_deref hn hx
  have hpz := Tree.heap_ne_of_deref hn hz
  -- Away from the three nodes the tree is as after the store.
  have hheap : ∀ a, w.priv a ≠ some t → a ≠ node.addr →
      (w.tree.growNode sl node z n' x k u).heap a = (w.tree.store sl ⟨z, n'.type⟩).heap a := by
    intro a hpriv hap
    have hax : a ≠ x := fun heq => hpriv (heq ▸ hownx)
    have haz : a ≠ z := fun heq => hpriv (heq ▸ hownz)
    rw [Tree.growNode, Tree.set_heap, if_neg hax, Tree.set_heap, if_neg haz, Tree.set_heap,
      if_neg hap]
  refine ⟨_, Commit.of_pair hinv hhas hrequest hdid hnodes hheld hsl hread htree hadds hunbound rfl
    ?_ ?_ (fun {a} ha => ?_) (fun a ha => hheap a ?_ ?_)
    (fun a _ hpriv ha => .inl (hheap a hpriv ?_)) (fun c q hc hq => ?_)
    fun slot' q hslot _ hq => .of_clean (hslot ▸ hsite) hq⟩
  · rw [Tree.growNode, Tree.set_heap, if_neg hxz.symm, Tree.set_heap, if_pos rfl]
  · rw [Tree.growNode, Tree.set_heap, if_pos rfl]
  · rw [hlinked, List.mem_singleton] at ha
    subst ha
    refine ⟨hd, ?_⟩
    rw [Tree.growNode, Tree.set_heap, if_neg hpx, Tree.set_heap, if_neg hpz, Tree.set_heap,
      if_pos rfl]
  · exact fun hpriv => hinv.ne_site hpriv hheld ha
  · rintro rfl
    exact hinv.ne_doomed hd hheld ha
  · rintro rfl
    exact ha (by rw [hlinked]; exact List.mem_singleton_self _)
  · rw [hn'.child_eq, Function.update_apply] at hc
    split at hc
    · cases hc
      exact absurd rfl hq
    · exact .of_child hn hclean hc

/-- A leaf's edge is split. -/
theorem commit_splitLeaf (hlinked : kit.linked = [])
    (hn : w.tree.deref node = some (.leaf k' u')) (hn' : n'.Rep (Tree.twoChildren b node b' x))
    (hbb : b ≠ b') (hne : k ≠ k') (hold : slot.start w.path ++ n'.keyPrefix.bytes ++ [b] <+: k')
    (hnew : slot.start w.path ++ n'.keyPrefix.bytes ++ [b'] <+: k)
    (hsite : w.Clean (graphSite slot)) :
    ∃ tree path, Commit K t (graphSite slot) w
        (w.commit t (w.db.mem.store sl ⟨z, n'.type⟩) tree path) ∧
      (w.commit t (w.db.mem.store sl ⟨z, n'.type⟩) tree path).Clean (graphSite slot) := by
  obtain ⟨hownz, hownx, hz, hx, hxz⟩ := hhas.pair hinv hnodes
  obtain ⟨htree, hadds⟩ := hinv.tree.splitLeaf hsl hread hn hn' hx hz hxz hbb hold hk hnew u
  have hstart : slot.start w.path <+: k :=
    ((List.prefix_append _ _).trans (List.prefix_append _ _)).trans hnew
  have hunbound := hinv.tree.unbound_of_leaf hread hstart hn hne
  have hheap : ∀ a, w.priv a ≠ some t →
      (w.tree.splitLeaf sl z n' x k u).heap a = (w.tree.store sl ⟨z, n'.type⟩).heap a := by
    intro a hpriv
    have hax : a ≠ x := fun heq => hpriv (heq ▸ hownx)
    have haz : a ≠ z := fun heq => hpriv (heq ▸ hownz)
    rw [Tree.splitLeaf, Tree.set_heap, if_neg hax, Tree.set_heap, if_neg haz]
  refine ⟨_, Commit.of_pair hinv hhas hrequest hdid hnodes hheld hsl hread htree hadds hunbound rfl
    ?_ ?_ (fun ha => ?_) (fun a ha => hheap a fun hpriv => hinv.ne_site hpriv hheld ha)
    (fun a _ hpriv _ => .inl (hheap a hpriv)) (fun c q hc hq => ?_)
    fun slot' q hslot _ hq => .of_clean (hslot ▸ hsite) hq⟩
  · rw [Tree.splitLeaf, Tree.set_heap, if_neg hxz.symm, Tree.set_heap, if_pos rfl]
  · rw [Tree.splitLeaf, Tree.set_heap, if_pos rfl]
  · rw [hlinked] at ha
    cases ha
  · obtain rfl : q = node := by
      rw [hn'.child_eq] at hc
      exact (Tree.twoChildren_eq_some hc).resolve_left hq
    obtain ⟨body, hbody, hwithin, -⟩ := hinv.body (Tree.deref_eq_some_iff.mp hn).1
    rw [hwithin.leaf] at hbody
    exact .leaf hbody

/-- An inner node's edge is split; the prefix of the node was cut in memory before. -/
theorem commit_splitPrefix (hlinked : kit.linked = [])
    (hn : w.tree.deref node = some (.inode n)) (hm : w.db.mem.deref node = some (.inode m))
    (hn' : n'.Rep (Tree.twoChildren b node b' x)) (hbb : b ≠ b')
    (hold : n.keyPrefix.bytes = n'.keyPrefix.bytes ++ [b] ++ m.keyPrefix.bytes)
    (hnew : slot.start w.path ++ n'.keyPrefix.bytes ++ [b'] <+: k)
    (hown : w.Owns t (.node node.addr)) (hclean : w.Clean (.node node.addr))
    (hsite : ∀ slot' q, graphSite slot' = graphSite slot → slot' ≠ slot →
      w.tree.graph.read slot' = some q → ∀ {n n'}, w.tree.heap q.addr = some (.inode n) →
        w.db.mem.heap q.addr = some (.inode n') → n'.keyPrefix = n.keyPrefix) :
    ∃ tree path, Commit K t (graphSite slot) w
        (w.commit t (w.db.mem.store sl ⟨z, n'.type⟩) tree path) ∧
      (w.commit t (w.db.mem.store sl ⟨z, n'.type⟩) tree path).Clean (graphSite slot) ∧
      (w.commit t (w.db.mem.store sl ⟨z, n'.type⟩) tree path).Clean (.node node.addr) := by
  obtain ⟨hownz, hownx, hz, hx, hxz⟩ := hhas.pair hinv hnodes
  obtain ⟨hheap, -⟩ := Tree.deref_eq_some_iff.mp hn
  obtain ⟨hmheap, -⟩ := Tree.deref_eq_some_iff.mp hm
  have hwf := hinv.tree.wf hheap
  have hcut : INode.Rep { n with keyPrefix := m.keyPrefix } n.child := INode.Rep.of_kids hwf rfl rfl
  obtain ⟨htree, hadds⟩ := hinv.tree.splitPrefix hsl hread hn hn' hcut rfl hx hz hxz hbb hold hk hnew u
  have hstart : slot.start w.path <+: k :=
    ((List.prefix_append _ _).trans (List.prefix_append _ _)).trans hnew
  -- The path of the node goes on with another byte than the key.
  have hleaves : ¬ w.path node <+: k := by
    rw [hinv.tree.path_eq hread hn, hold, ← List.append_assoc, ← List.append_assoc]
    intro hpre
    exact hbb (Radix.snoc_inj_of_isPrefix ((List.prefix_append _ _).trans hpre) hnew)
  have hunbound := hinv.tree.unbound_of_prefix hread hstart hn hleaves
  have hplace := hinv.ne_place hread
  have hpx := Tree.heap_ne_of_deref hn hx
  have hpz := Tree.heap_ne_of_deref hn hz
  have hsame : ∀ a, w.priv a ≠ some t → a ≠ node.addr →
      (w.tree.splitPrefix sl z n' x k u node { n with keyPrefix := m.keyPrefix }).heap a =
        (w.tree.store sl ⟨z, n'.type⟩).heap a := by
    intro a hpriv hap
    have hax : a ≠ x := fun heq => hpriv (heq ▸ hownx)
    have haz : a ≠ z := fun heq => hpriv (heq ▸ hownz)
    rw [Tree.splitPrefix, Tree.set_heap, if_neg hap, Tree.splitLeaf, Tree.set_heap, if_neg hax,
      Tree.set_heap, if_neg haz]
  have hnode : (w.tree.splitPrefix sl z n' x k u node { n with keyPrefix := m.keyPrefix }).heap
      node.addr = some (.inode { n with keyPrefix := m.keyPrefix }) := by
    rw [Tree.splitPrefix, Tree.set_heap, if_pos rfl]
  have hpair : ∃ path, Commit K t (graphSite slot) w
      (w.commit t (w.db.mem.store sl ⟨z, n'.type⟩)
        (w.tree.splitPrefix sl z n' x k u node { n with keyPrefix := m.keyPrefix }) path) ∧
      (w.commit t (w.db.mem.store sl ⟨z, n'.type⟩)
        (w.tree.splitPrefix sl z n' x k u node { n with keyPrefix := m.keyPrefix }) path).Clean
        (graphSite slot) := by
    refine Commit.of_pair hinv hhas hrequest hdid hnodes hheld hsl hread htree hadds hunbound rfl ?_
      ?_ (fun ha => ?_) (fun a ha => hsame a ?_ ?_) (fun a path hpriv _ => ?_) (fun c q hc hq => ?_)
      fun slot' q hslot hne hq => .old hq (hsite slot' q hslot hne hq)
    · rw [Tree.splitPrefix, Tree.set_heap, if_neg hpz.symm, Tree.splitLeaf, Tree.set_heap,
        if_neg hxz.symm, Tree.set_heap, if_pos rfl]
    · rw [Tree.splitPrefix, Tree.set_heap, if_neg hpx.symm, Tree.splitLeaf, Tree.set_heap,
        if_pos rfl]
    · rw [hlinked] at ha
      cases ha
    · exact fun hpriv => hinv.ne_site hpriv hheld ha
    · rintro rfl
      exact hplace ha
    · by_cases hap : a = node.addr
      · subst hap
        refine .inr (.adjusted hheap hnode rfl rfl hmheap ?_ rfl (if_neg hpriv) rfl hread
          (.inl ⟨_, hheld⟩) (.inl hown))
        exact OlcDb.store_heap (fun heq => hplace (hsl.site.symm.trans heq.symm)) _
      · exact .inl (hsame a hpriv hap)
    · obtain rfl : q = node := by
        rw [hn'.child_eq] at hc
        exact (Tree.twoChildren_eq_some hc).resolve_left hq
      exact .adjusted hmheap hnode rfl
  obtain ⟨path, hw, hcleaned⟩ := hpair
  refine ⟨_, path, hw, hcleaned, clean_of_fits hinv hw.node fun slot' q hslot hq => ?_⟩
  cases slot' with
  | root => cases hslot
  | child y c =>
    obtain ⟨n1, hn1, hc⟩ := Tree.read_child_iff.mp hq
    have hheap1 := (Tree.deref_eq_some_iff.mp hn1).1
    rw [Site.node.inj hslot] at hheap1
    cases hnode.symm.trans hheap1
    exact .of_child hn hclean hc

end Pair

end Insert

/-! ## 5. Removals -/

section Remove

variable {k u k' u' : List UInt8} {b b' : UInt8} {c : NodePtr} (hinv : Inv K w) (hhas : w.Has t kit)
  (hrequest : kit.request = .remove k) (hdid : kit.did = false)
include hinv hhas hrequest hdid

omit hinv hdid in
theorem Has.effect_remove (hbinds : w.tree.Binds k u) (hdrops : w.tree.Drops tree k) :
    Effect w.tree tree (w.job t).request := by
  rw [hhas.request, hrequest]
  exact ⟨⟨u, hbinds⟩, hdrops⟩

/-- The last leaf. -/
theorem commit_removeRoot (hnodes : kit.nodes = []) (hlinked : kit.linked = [node.addr])
    (hd : w.DoomedBy t node.addr) (hheld : w.db.lock .root = .locked v t)
    (hroot : w.tree.root = some node) (hn : w.tree.deref node = some (.leaf k u)) :
    ∃ tree path, Commit K t .root w (w.commit t { w.db.mem with root := none } tree path) ∧
      (w.commit t { w.db.mem with root := none } tree path).Clean .root := by
  obtain ⟨htree, hdrops⟩ := hinv.tree.removeRoot hroot hn
  have hbinds : w.tree.Binds k u := ⟨_, (Tree.deref_eq_some_iff.mp hn).1⟩
  refine ⟨_, _, Commit.of hinv hhas hheld htree rfl (fun hne => absurd rfl hne) (fun _ => rfl)
    (fun {a body} ha => ?_) (fun {a} ha => ?_) (fun a hpriv ha => ?_) (fun {a n} ha => ?_)
    (hhas.effect_remove hrequest hbinds hdrops) hdid, ?_⟩
  · rw [hnodes] at ha
    cases ha
  · rw [hlinked, List.mem_singleton] at ha
    subst ha
    exact ⟨hd, Function.update_self _ _ _, rfl⟩
  · refine .same (Function.update_of_ne ?_ _ _) rfl (if_neg hpriv)
    rintro rfl
    exact ha (by rw [hlinked]; exact List.mem_singleton_self _)
  · rw [hnodes] at ha
    cases ha
  · intro slot p n n' hslot hread
    cases slot with
    | root => cases hread
    | child => cases hslot

section Child

variable (hn : w.tree.deref node = some (.inode n)) (hb : n.child b = some c)
  (hc : w.tree.deref c = some (.leaf k u))
include hn hb hc

/-- A leaf of an inner node above its minimum size. -/
theorem commit_removeLeaf (hnodes : kit.nodes = []) (hlinked : kit.linked = [c.addr])
    (hd : w.DoomedBy t c.addr) (hheld : w.db.lock (.node node.addr) = .locked v t)
    (hclean : w.Clean (.node node.addr)) (hm : w.db.mem.deref node = some (.inode m))
    (hm' : m'.Rep (Function.update m.child b none)) (hpre : m'.keyPrefix = m.keyPrefix)
    (htype : m'.type = m.type) (hdeg : 2 < degree m.child) :
    ∃ tree path, Commit K t (.node node.addr) w
        (w.commit t (w.db.mem.set node.addr (some (.inode m'))) tree path) ∧
      (w.commit t (w.db.mem.set node.addr (some (.inode m'))) tree path).Clean
        (.node node.addr) := by
  have hlive : w.Live t ⟨.node node.addr, v⟩ := .inr hheld
  obtain ⟨hcount, hlayout⟩ := hinv.mem_of_live rfl hlive hn hm
  have hchild := INode.child_of_kids hcount hlayout
  have hrep : INode.Rep { m' with keyPrefix := n.keyPrefix } (Function.update n.child b none) := by
    rw [hchild] at hm'
    exact hm'.of_kids rfl rfl
  have htype' : INode.type { m' with keyPrefix := n.keyPrefix } = n.type :=
    htype.trans (INode.type_of_layout hlayout)
  obtain ⟨htree, hdrops⟩ := hinv.tree.removeLeaf hn hb hc hrep rfl htype' (hchild ▸ hdeg)
  have hbinds : w.tree.Binds k u := ⟨_, (Tree.deref_eq_some_iff.mp hc).1⟩
  have hpc := Tree.addr_ne_of_leaf_inode hn hc
  have hnode : (w.tree.removeLeaf node { m' with keyPrefix := n.keyPrefix } c.addr).heap node.addr =
      some (.inode { m' with keyPrefix := n.keyPrefix }) := (Tree.set_heap ..).trans (if_pos rfl)
  refine ⟨_, _, Commit.of_update hinv hhas hheld hn (Tree.deref_eq_some_iff.mp hm).1 htree
    (fun _ => rfl) rfl hnode rfl htype' hpre rfl rfl (fun {a body} ha => ?_) (fun {a} ha => ?_)
    (fun a hne hpriv ha => ?_) (fun {a n} ha => ?_) (fun d q hd => ?_)
    (hhas.effect_remove hrequest hbinds hdrops) hdid⟩
  · rw [hnodes] at ha
    cases ha
  · rw [hlinked, List.mem_singleton] at ha
    subst ha
    refine ⟨hd, ?_⟩
    rw [Tree.removeLeaf, Tree.set_heap, if_neg hpc.symm, Tree.set_heap, if_pos rfl]
  · rw [Tree.removeLeaf, Tree.set_heap, if_neg hne, Tree.set_heap, if_neg]
    rintro rfl
    exact ha (by rw [hlinked]; exact List.mem_singleton_self _)
  · rw [hnodes] at ha
    cases ha
  · rw [hrep.child_eq, Function.update_apply] at hd
    split at hd
    · cases hd
    · exact .of_child hn hclean hd

variable (hlinked : kit.linked = [c.addr, node.addr]) (hdc : w.DoomedBy t c.addr)
  (hdn : w.DoomedBy t node.addr) (hheld : w.db.lock (graphSite slot) = .locked v t)
  (hsl : w.tree.SlotAt sl slot) (hread : w.tree.graph.read slot = some node)
  (hsite : w.Clean (graphSite slot))
include hlinked hdc hdn hheld hsl hread hsite

omit hn hb in
/-- A node is taken out together with its leaf, and the place leads to another one. -/
theorem Commit.of_unlink (htree : tree.Inv K path) (hpath : ∀ {p}, w.Known p → path p = w.path p)
    (hdrops : w.tree.Drops tree k) (hroot : tree.root = (w.tree.store sl r).root)
    (hnone : tree.heap c.addr = none) (hnone' : tree.heap node.addr = none)
    (hnodes : ∀ {a body}, (a, body) ∈ kit.nodes → tree.heap a = some body)
    (hkeep : ∀ a, graphSite slot = .node a → tree.heap a = (w.tree.store sl r).heap a)
    (hrest : ∀ a, w.priv a ≠ some t → a ≠ c.addr → a ≠ node.addr →
      tree.heap a = (w.tree.store sl r).heap a ∨
        CommitStep t (graphSite slot) w (w.commit t (w.db.mem.store sl r) tree path) a)
    (hkids : ∀ {a n}, (a, .inode n) ∈ kit.nodes → ∀ b c, n.child b = some c → w.Fits t tree c)
    (hr : w.Fits t tree r) :
    Commit K t (graphSite slot) w (w.commit t (w.db.mem.store sl r) tree path) ∧
      (w.commit t (w.db.mem.store sl r) tree path).Clean (graphSite slot) := by
  have hbinds : w.tree.Binds k u := ⟨_, (Tree.deref_eq_some_iff.mp hc).1⟩
  refine Commit.of_store hinv hhas hheld hsl hread htree hpath hroot hnodes (fun {a} ha => ?_) hkeep
    (fun a hpriv ha => ?_) hkids hr (fun slot' q hslot _ hq => .of_clean (hslot ▸ hsite) hq)
    (hhas.effect_remove hrequest hbinds hdrops) hdid
  · rw [hlinked, List.mem_cons, List.mem_singleton] at ha
    rcases ha with rfl | rfl
    · exact ⟨hdc, hnone⟩
    · exact ⟨hdn, hnone'⟩
  · rw [hlinked, List.mem_cons, List.mem_singleton, not_or] at ha
    exact hrest a hpriv ha.1 ha.2

/-- A node of minimum size gives way to a smaller one without the leaf. -/
theorem commit_shrinkNode (hnodes : kit.nodes = [(z, .inode n')])
    (hn' : n'.Rep (Function.update n.child b none)) (hpre : n'.keyPrefix = n.keyPrefix)
    (hdeg : 2 < degree n.child) (hclean : w.Clean (.node node.addr)) :
    ∃ tree path, Commit K t (graphSite slot) w
        (w.commit t (w.db.mem.store sl ⟨z, n'.type⟩) tree path) ∧
      (w.commit t (w.db.mem.store sl ⟨z, n'.type⟩) tree path).Clean (graphSite slot) := by
  have hown : w.priv z = some t := hhas.priv_of_mem (by rw [hnodes]; exact List.mem_cons_self)
  have hz := (hinv.priv hown).2.1
  obtain ⟨htree, hdrops⟩ := hinv.tree.shrinkNode hsl hread hn hb hc hn' hpre hz hdeg
  have hpz := Tree.heap_ne_of_deref hn hz
  have hcz := Tree.heap_ne_of_deref hc hz
  have hpc := Tree.addr_ne_of_leaf_inode hn hc
  have hheap : ∀ a, w.priv a ≠ some t → a ≠ c.addr → a ≠ node.addr →
      (w.tree.shrinkNode sl node z n' c.addr).heap a = (w.tree.store sl ⟨z, n'.type⟩).heap a := by
    intro a hpriv hac hap
    have haz : a ≠ z := fun heq => hpriv (heq ▸ hown)
    rw [Tree.shrinkNode, Tree.set_heap, if_neg haz, Tree.set_heap, if_neg hac, Tree.set_heap,
      if_neg hap]
  refine ⟨_, _, Commit.of_unlink hinv hhas hrequest hdid hc hlinked hdc hdn hheld hsl hread hsite
    htree (fun {p} hp => ?_) hdrops rfl ?_ ?_ (fun {a body} ha => ?_) (fun a ha => hheap a ?_ ?_ ?_)
    (fun a hpriv hac hap => .inl (hheap a hpriv hac hap)) (fun {a m} ha d q hd => ?_) (.own hown)⟩
  · refine Function.update_of_ne ?_ _ _
    rintro rfl
    exact hp.ne_own hinv hown rfl
  · rw [Tree.shrinkNode, Tree.set_heap, if_neg hcz, Tree.set_heap, if_pos rfl]
  · rw [Tree.shrinkNode, Tree.set_heap, if_neg hpz, Tree.set_heap, if_neg hpc, Tree.set_heap,
      if_pos rfl]
  · rw [hnodes, List.mem_singleton] at ha
    obtain ⟨rfl, rfl⟩ := Prod.mk.inj ha
    rw [Tree.shrinkNode, Tree.set_heap, if_pos rfl]
  · exact fun hpriv => hinv.ne_site hpriv hheld ha
  · rintro rfl
    exact hinv.ne_doomed hdc hheld ha
  · rintro rfl
    exact hinv.ne_doomed hdn hheld ha
  · obtain ⟨-, rfl⟩ : a = z ∧ m = n' := by simpa [hnodes] using ha
    rw [hn'.child_eq, Function.update_apply] at hd
    split at hd
    · cases hd
    · exact .of_child hn hclean hd

variable (hnodes : kit.nodes = []) (hb' : n.child b' = some q) (hbb : b' ≠ b)
  (honly : ∀ x, (n.child x).isSome → x = b ∨ x = b')
include hnodes hb' hbb honly

/-- A two-child node goes with its leaf, and the place leads to the other child, a leaf. -/
theorem commit_collapse (hq : w.tree.deref q = some (.leaf k' u')) :
    ∃ tree path, Commit K t (graphSite slot) w (w.commit t (w.db.mem.store sl q) tree path) ∧
      (w.commit t (w.db.mem.store sl q) tree path).Clean (graphSite slot) := by
  obtain ⟨htree, hdrops⟩ := hinv.tree.collapse hsl hread hn hb hc hb' hbb honly hq
  have hpc := Tree.addr_ne_of_leaf_inode hn hc
  obtain ⟨body, hbody, hwithin, -⟩ := hinv.body (Tree.deref_eq_some_iff.mp hq).1
  rw [hwithin.leaf] at hbody
  have hheap : ∀ a, a ≠ c.addr → a ≠ node.addr →
      (w.tree.collapse sl node c.addr q).heap a = (w.tree.store sl q).heap a := by
    intro a hac hap
    rw [Tree.collapse, Tree.set_heap, if_neg hac, Tree.set_heap, if_neg hap]
  refine ⟨_, _, Commit.of_unlink hinv hhas hrequest hdid hc hlinked hdc hdn hheld hsl hread hsite
    htree (fun _ => rfl) hdrops rfl ?_ ?_ (fun {a body} ha => ?_) (fun a ha => hheap a ?_ ?_)
    (fun a _ hac hap => .inl (hheap a hac hap)) (fun {a m} ha => ?_) (.leaf hbody)⟩
  · rw [Tree.collapse, Tree.set_heap, if_pos rfl]
  · rw [Tree.collapse, Tree.set_heap, if_neg hpc, Tree.set_heap, if_pos rfl]
  · rw [hnodes] at ha
    cases ha
  · rintro rfl
    exact hinv.ne_doomed hdc hheld ha
  · rintro rfl
    exact hinv.ne_doomed hdn hheld ha
  · rw [hnodes] at ha
    cases ha

/-- The other child is an inner node, which was given the longer prefix in memory before. -/
theorem commit_collapseInode (hq : w.tree.deref q = some (.inode m))
    (hm : w.db.mem.deref q = some (.inode m'))
    (hpre : m'.keyPrefix.bytes = n.keyPrefix.bytes ++ b' :: m.keyPrefix.bytes) :
    ∃ tree path, Commit K t (graphSite slot) w (w.commit t (w.db.mem.store sl q) tree path) ∧
      (w.commit t (w.db.mem.store sl q) tree path).Clean (graphSite slot) := by
  obtain ⟨hqheap, -⟩ := Tree.deref_eq_some_iff.mp hq
  obtain ⟨hmheap, -⟩ := Tree.deref_eq_some_iff.mp hm
  have hjoined : INode.Rep { m with keyPrefix := m'.keyPrefix } m.child :=
    INode.Rep.of_kids (hinv.tree.wf hqheap) rfl rfl
  obtain ⟨htree, hdrops⟩ := hinv.tree.collapseInode hsl hread hn hb hc hb' hbb honly hq hjoined rfl hpre
  have hreadq : w.tree.graph.read (.child node b') = some q := by rw [Tree.graph_read_child hn, hb']
  have hpc := Tree.addr_ne_of_leaf_inode hn hc
  have hqc := Tree.addr_ne_of_leaf_inode hq hc
  have hqp := hinv.tree.addr_ne_child hn hreadq hq
  have hqsite : Site.node q.addr ≠ sl.site := by
    have hne := hinv.tree.ne_slot_child hsl hread hreadq hq
    cases sl with
    | root => simp [Slot.site]
    | child y i =>
      intro heq
      exact hne i (by rw [Site.node.inj heq])
  have hheap : ∀ a, a ≠ c.addr → a ≠ node.addr → a ≠ q.addr →
      (w.tree.collapseInode sl node c.addr q { m with keyPrefix := m'.keyPrefix }).heap a =
        (w.tree.store sl q).heap a := by
    intro a hac hap haq
    rw [Tree.collapseInode, Tree.set_heap, if_neg haq, Tree.collapse, Tree.set_heap, if_neg hac,
      Tree.set_heap, if_neg hap]
  have hnode : (w.tree.collapseInode sl node c.addr q { m with keyPrefix := m'.keyPrefix }).heap
      q.addr = some (.inode { m with keyPrefix := m'.keyPrefix }) := (Tree.set_heap ..).trans (if_pos rfl)
  refine ⟨_, _, Commit.of_unlink hinv hhas hrequest hdid hc hlinked hdc hdn hheld hsl hread hsite
    htree (fun _ => rfl) hdrops rfl ?_ ?_ (fun {a body} ha => ?_) (fun a ha => hheap a ?_ ?_ ?_)
    (fun a hpriv hac hap => ?_) (fun {a m} ha => ?_) (.adjusted hmheap hnode rfl)⟩
  · rw [Tree.collapseInode, Tree.set_heap, if_neg hqc.symm, Tree.collapse, Tree.set_heap, if_pos rfl]
  · rw [Tree.collapseInode, Tree.set_heap, if_neg hqp.symm, Tree.collapse, Tree.set_heap, if_neg hpc,
      Tree.set_heap, if_pos rfl]
  · rw [hnodes] at ha
    cases ha
  · rintro rfl
    exact hinv.ne_doomed hdc hheld ha
  · rintro rfl
    exact hinv.ne_doomed hdn hheld ha
  · rintro rfl
    exact hqsite (ha.symm.trans hsl.site.symm)
  · by_cases haq : a = q.addr
    · subst haq
      exact .inr (.adjusted hqheap hnode rfl rfl hmheap (OlcDb.store_heap hqsite q) rfl (if_neg hpriv)
        rfl hreadq (.inr ⟨_, rfl, hdn⟩) (.inr ⟨_, hhas.request.trans hrequest⟩))
    · exact .inl (hheap a hac hap haq)
  · rw [hnodes] at ha
    cases ha

end Child

end Remove

end World

/-! ## 6. The rules -/

namespace OlcDb

namespace Meets

open World

variable {α : Type} {K : Set (List UInt8)} {t : Nat} {kit : Kit} {F G : World sizes → Prop}
  {Q : α → World sizes → Prop} {k : Unit → OlcM sizes α}

/-- The store that makes the update. -/
theorem storeSlot {sl : Slot} {r : NodePtr} (hF : Steady K t F)
    (hcommit : ∀ ⦃w : World sizes⦄, Inv K w → w.Has t kit → F w → ∃ l tree path,
      Commit K t l w (w.commit t (w.db.mem.store sl r) tree path) ∧
        G (w.commit t (w.db.mem.store sl r) tree path))
    (hk : Meets K t { kit with nodes := [], linked := [], did := true } G (k ()) Q) :
    Meets K t kit F (OlcDb.storeSlot sl r >>= k) Q := by
  refine act hF fun w hinv hhas hw => ?_
  obtain ⟨l, tree, path, hc, hG⟩ := hcommit hinv hhas hw
  exact ⟨_, _, G, rfl, hc.inv hinv, hc.step hinv, hhas.commit hc, hG, hk⟩

theorem clearRoot (hF : Steady K t F)
    (hcommit : ∀ ⦃w : World sizes⦄, Inv K w → w.Has t kit → F w → ∃ l tree path,
      Commit K t l w (w.commit t { w.db.mem with root := none } tree path) ∧
        G (w.commit t { w.db.mem with root := none } tree path))
    (hk : Meets K t { kit with nodes := [], linked := [], did := true } G (k ()) Q) :
    Meets K t kit F (OlcDb.clearRoot >>= k) Q := by
  refine act hF fun w hinv hhas hw => ?_
  obtain ⟨l, tree, path, hc, hG⟩ := hcommit hinv hhas hw
  exact ⟨_, _, G, rfl, hc.inv hinv, hc.step hinv, hhas.commit hc, hG, hk⟩

/-- The change in place that makes the update. -/
theorem updateInode {node : NodePtr} {f : INode NodePtr → Except Fault (INode NodePtr)}
    (hF : Steady K t F)
    (hcommit : ∀ ⦃w : World sizes⦄, Inv K w → w.Has t kit → F w → ∃ m m' l tree path,
      w.db.mem.deref node = some (.inode m) ∧ f m = .ok m' ∧
      Commit K t l w (w.commit t (w.db.mem.set node.addr (some (.inode m'))) tree path) ∧
        G (w.commit t (w.db.mem.set node.addr (some (.inode m'))) tree path))
    (hk : Meets K t { kit with nodes := [], linked := [], did := true } G (k ()) Q) :
    Meets K t kit F (OlcDb.updateInode node f >>= k) Q := by
  refine tryAct hF (fun w c e hinv hhas hw hf => ?_) fun w c b s hinv hhas hw hf => ?_
  · obtain ⟨m, m', -, -, -, hm, hm', -⟩ := hcommit hinv hhas hw
    rw [Tree.readInode_ok hm] at hf
    simp only [Bind.bind, Except.bind, hm'] at hf
    cases hf
  · obtain ⟨m, m', l, tree, path, hm, hm', hc, hG⟩ := hcommit hinv hhas hw
    rw [Tree.readInode_ok hm] at hf
    simp only [Bind.bind, Except.bind, hm'] at hf
    obtain ⟨rfl, rfl⟩ := Prod.mk.inj (Except.ok.inj hf)
    exact ⟨_, _, G, rfl, hc.inv hinv, hc.step hinv, hhas.commit hc, hG, hk⟩

end Meets

end OlcDb

end Unodb
