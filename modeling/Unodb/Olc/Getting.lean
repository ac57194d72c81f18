import Unodb.Olc.Updates

/-!
# Lookups by several threads

`try_get` takes no lock for writing.  The value that it finds was bound to the key while the section
of the leaf was valid.  That the key is absent is sure as long as no thread removes keys: the node
that a removal leaves over gets a longer prefix without its own lock.
-/

open Arrays

namespace Unodb

namespace World

variable {κ : Type} [LawfulArtKey κ] {K : Set (List UInt8)} {w w' : World sizes} {t : Nat}
  {key : List UInt8} {parentCs nodeCs : CriticalSection} {sl : Slot}
  {slot : Radix.Slot NodePtr UInt8} {node child : NodePtr} {depth ci i : Nat} {rem rem1 : κ}
  {P N : INode NodePtr → Prop} {b : UInt8}

/-! ## 1. On the way -/

theorem exists_slotAt {t : Tree} {path : NodePtr → List UInt8} (h : t.Inv K path)
    (hread : t.graph.read slot = some node) : ∃ sl, t.SlotAt sl slot := by
  cases slot with
  | root => exact ⟨.root, .root⟩
  | child p b =>
    obtain ⟨n, hn, hb⟩ := Tree.read_child_iff.mp hread
    have hwf := h.wf (Tree.deref_eq_some_iff.mp hn).1
    cases hfind : n.findChild b with
    | none =>
      rw [(hwf.findChild_eq_none_iff b).mp hfind] at hb
      cases hb
    | some r =>
      obtain ⟨ci, i⟩ := r
      exact ⟨.child p.addr i, .child hn hfind⟩

/-- The bytes taken so far lead to the inner node, which is in memory as it is in the tree. -/
structure Inside (w : World sizes) (key : List UInt8) (node : NodePtr) (depth : Nat) (rem : κ)
    (P : INode NodePtr → Prop) : Prop where
  place : ∃ slot, w.tree.graph.read slot = some node ∧ slot.start w.path <+: key ∧
    (slot.start w.path).length = depth
  rem_drop : LawfulArtKey.Rem rem (key.drop depth)
  inode : ∃ n, w.tree.deref node = some (.inode n) ∧ w.db.mem.deref node = some (.inode n) ∧ P n

theorem Inside.at {n : INode NodePtr} (h : w.Inside key node depth rem P) (hinv : Inv K w)
    (hn : w.tree.deref node = some (.inode n)) :
    P n ∧ ∃ sl slot, w.tree.At w.path key sl slot depth rem ∧ w.tree.graph.read slot = some node := by
  obtain ⟨slot, hread, hstart, hlength⟩ := h.place
  obtain ⟨m, hm, -, hP⟩ := h.inode
  cases hn.symm.trans hm
  obtain ⟨sl, hsl⟩ := exists_slotAt hinv.tree hread
  exact ⟨hP, sl, slot, ⟨hsl, hstart, hlength, h.rem_drop⟩, hread⟩

/-- The loop of `try_get` has begun a section of an inner node. -/
structure AtInner (w : World sizes) (t : Nat) (key : List UInt8) (node : NodePtr) (rem : κ)
    (nodeCs : CriticalSection) (P N : INode NodePtr → Prop) : Prop where
  nodeSite : nodeCs.lock = .node node.addr
  nodeBegun : w.Begun nodeCs
  known : w.Known node
  kids : w.Live t nodeCs → ∃ n, w.tree.deref node = some (.inode n) ∧ N n
  inside : w.insertsOnly → w.Live t nodeCs → ∃ depth, w.Inside key node depth rem P
  ofKids : ∀ {n n' : INode NodePtr}, n'.childrenCount = n.childrenCount → n'.layout = n.layout →
    N n → N n'

/-- No insertion moves an inner node to another place while its section is valid, but for new nodes
    above that leave its path and its prefix alone. -/
theorem Inside.keeps (h : w.Inside key node depth rem P) (hinv : Inv K w) (hinv' : Inv K w')
    (hkeeps : Keeps t w w') (honly : w.insertsOnly) (hsite : nodeCs.lock = .node node.addr)
    (hlive : w.Live t nodeCs) (hlive' : w'.Live t nodeCs) : w'.Inside key node depth rem P := by
  obtain ⟨⟨slot, hread, hstart, hlength⟩, hrem, n, hn, hm, hP⟩ := h
  obtain ⟨n', hn', hcount, hlayout⟩ := hkeeps.inode hsite hlive hn
  obtain ⟨htreePre, hmemPre⟩ := hkeeps.ownPrefix honly hlive hsite hread
  obtain ⟨n1, hn1, hpre⟩ := htreePre (Tree.deref_eq_some_iff.mp hn).1
  cases (Tree.deref_eq_some_iff.mp hn').1.symm.trans hn1
  obtain rfl : n' = n := by rw [INode.eq_of_kids hcount hlayout, hpre]
  have hpath : w'.path node = w.path node := (hkeeps.known (hinv.known hn)).2.1
  obtain ⟨slot', hread'⟩ := hinv'.tree.graph.pointed (Tree.graph_node_inode hn')
  have hstart' : slot'.start w'.path = slot.start w.path := by
    have heq := hinv.tree.path_eq hread hn
    rw [← hpath, hinv'.tree.path_eq hread' hn'] at heq
    exact List.append_cancel_right heq
  refine ⟨⟨slot', hread', hstart' ▸ hstart, hstart' ▸ hlength⟩, hrem, n', hn', ?_, hP⟩
  obtain ⟨m1, hm1, hpre1⟩ := hmemPre (Tree.deref_eq_some_iff.mp hm).1
  obtain ⟨m, hm'⟩ := hinv'.mem_inode hn'
  cases (Tree.deref_eq_some_iff.mp hm').1.symm.trans hm1
  obtain ⟨hcount', hlayout'⟩ := hinv'.mem_of_live hsite hlive' hn' hm'
  rw [hm', INode.eq_of_kids hcount' hlayout', hpre1]

theorem lasting_atInner (t : Nat) (key : List UInt8) (node : NodePtr) (rem : κ)
    (nodeCs : CriticalSection) (P N : INode NodePtr → Prop) :
    Lasting K t fun w : World sizes => w.AtInner t key node rem nodeCs P N := by
  intro w w' hinv hinv' hkeeps h
  have hback : w'.Live t nodeCs → w.Live t nodeCs := (hkeeps.lock h.nodeBegun.atLeast).2
  refine ⟨h.nodeSite, lasting_begun nodeCs hinv hinv' hkeeps h.nodeBegun,
    (hkeeps.known h.known).1, fun hlive' => ?_, fun honly' hlive' => ?_, h.ofKids⟩
  · obtain ⟨n, hn, hN⟩ := h.kids (hback hlive')
    obtain ⟨n', hn', hcount, hlayout⟩ := hkeeps.inode h.nodeSite (hback hlive') hn
    exact ⟨n', hn', h.ofKids hcount hlayout hN⟩
  · have honly : w.insertsOnly := hkeeps.insertsOnly ▸ honly'
    obtain ⟨depth, hinside⟩ := h.inside honly (hback hlive')
    exact ⟨depth, hinside.keeps hinv hinv' hkeeps honly h.nodeSite (hback hlive') hlive'⟩

/-- What a lookup reads of the prefix of a node. -/
theorem AtInner.readPrefix {β : Type} {f : INode NodePtr → β} {r : β} {m : INode NodePtr}
    (h : w.AtInner t key node rem nodeCs P N) (hm : w.db.mem.deref node = some (.inode m))
    (hr : w.Live t nodeCs → f m = r) :
    w.AtInner t key node rem nodeCs (fun n => P n ∧ f n = r) N :=
  { h with
    inside := fun honly hlive => by
      obtain ⟨depth, hplace, hrem, n, hn, hm', hP⟩ := h.inside honly hlive
      cases hm.symm.trans hm'
      exact ⟨depth, hplace, hrem, m, hn, hm, hP, hr hlive⟩ }

/-- What it reads of the children. -/
theorem AtInner.readKids {β : Type} {f : INode NodePtr → β} {r : β} {m : INode NodePtr}
    (h : w.AtInner t key node rem nodeCs P N) (hinv : Inv K w)
    (hm : w.db.mem.deref node = some (.inode m)) (hr : w.Live t nodeCs → f m = r)
    (hf : ∀ {n n' : INode NodePtr}, n'.childrenCount = n.childrenCount → n'.layout = n.layout →
      f n' = f n) :
    w.AtInner t key node rem nodeCs P fun n => N n ∧ f n = r :=
  { h with
    kids := fun hlive => by
      obtain ⟨n, hn, hN⟩ := h.kids hlive
      obtain ⟨hcount, hlayout⟩ := hinv.mem_of_live h.nodeSite hlive hn hm
      exact ⟨n, hn, hN, (hf hcount hlayout).symm.trans (hr hlive)⟩
    ofKids := fun hcount hlayout hN =>
      ⟨h.ofKids hcount hlayout hN.1, (hf hcount hlayout).trans hN.2⟩ }

/-- The loop of `try_get` has read a pointer within a section of the node that holds it.  As long as
    no key is removed, the bytes taken so far lead there. -/
structure Seeks (w : World sizes) (t : Nat) (key : List UInt8) (parentCs : CriticalSection)
    (node : NodePtr) (rem : κ) : Prop where
  begun : w.Begun parentCs
  known : w.Known node
  length_le : (w.path node).length ≤ key.length
  looks : w.insertsOnly → ∃ sl slot depth, w.Looks t key parentCs sl slot node depth rem

theorem lasting_seeks (t : Nat) (key : List UInt8) (parentCs : CriticalSection) (node : NodePtr)
    (rem : κ) : Lasting K t fun w : World sizes => w.Seeks t key parentCs node rem := by
  intro w w' hinv hinv' hkeeps h
  obtain ⟨hknown, hpath, -⟩ := hkeeps.known h.known
  refine ⟨lasting_begun parentCs hinv hinv' hkeeps h.begun, hknown, hpath ▸ h.length_le,
    fun honly' => ?_⟩
  obtain ⟨sl, slot, depth, hlooks⟩ := h.looks (hkeeps.insertsOnly ▸ honly')
  exact ⟨sl, slot, depth, lasting_looks t key parentCs sl slot node depth rem hinv hinv' hkeeps hlooks⟩

/-- The fuel is enough for the rest of the way. -/
def Near (w : World sizes) (key : List UInt8) (node : NodePtr) (fuel : Nat) : Prop :=
  w.Known node ∧ key.length < fuel + (w.path node).length

theorem lasting_near (key : List UInt8) (node : NodePtr) (fuel : Nat) :
    Lasting K t fun w : World sizes => w.Near key node fuel := by
  intro w w' _ _ hkeeps h
  obtain ⟨hknown, hpath, -⟩ := hkeeps.known h.1
  exact ⟨hknown, hpath ▸ h.2⟩

/-- The path of a node is not longer than the keys. -/
theorem Inv.path_length_le (hinv : Inv K w) {len : Nat} (hlen : ∀ k ∈ K, k.length ≤ len)
    (hread : w.tree.graph.read slot = some node) : (w.path node).length ≤ len := by
  obtain ⟨l, k, v, hl, -, hpath⟩ := hinv.tree.graph.exists_leaf hread
  exact hpath.length_le.trans (hlen k (hinv.tree.graph.key_mem hl))

/-- A section of the inner node is begun before that of the place ends. -/
theorem Seeks.atInner (h : w.Seeks t key parentCs node rem) (hinv : Inv K w)
    (hvalid : w.db.Valid parentCs) (hsite : nodeCs.lock = .node node.addr)
    (hbegun : w.Begun nodeCs) (htype : node.type ≠ .leaf) :
    w.AtInner t key node rem nodeCs (fun _ => True) fun _ => True where
  nodeSite := hsite
  nodeBegun := hbegun
  known := h.known
  kids hlive := by
    obtain ⟨body, hbody⟩ := hinv.linked_of_known h.known (hsite ▸ hlive.ne_obsolete)
    cases body with
    | leaf k v => exact absurd (Tree.deref_eq_some_iff.mp hbody).2.symm htype
    | inode n => exact ⟨n, hbody, trivial⟩
  inside honly hlive := by
    obtain ⟨sl, slot, depth, hlooks⟩ := h.looks honly
    obtain ⟨n, hn, -⟩ := (hlooks.atNode hinv hsite hbegun htype).kids hlive
    obtain ⟨m, hm⟩ := hinv.mem_inode hn
    have hread := hlooks.read (.inl hvalid)
    obtain ⟨hcount, hlayout⟩ := hinv.mem_of_live hsite hlive hn hm
    have hpre := hinv.clean hvalid hlooks.site hread (Tree.deref_eq_some_iff.mp hn).1
      (Tree.deref_eq_some_iff.mp hm).1
    have heq : m = n := by rw [INode.eq_of_kids hcount hlayout, hpre]
    exact ⟨depth, ⟨slot, hread, hlooks.start, hlooks.depth_eq⟩, hlooks.rem_drop, n, hn, heq ▸ hm,
      trivial⟩
  ofKids _ _ _ := trivial

/-- While the section of the place is valid, a leaf there with another key shows that the key is
    absent. -/
theorem Seeks.absent (h : w.Seeks t key parentCs node rem) (hinv : Inv K w)
    (hvalid : w.db.Valid parentCs) (honly : w.insertsOnly) {k' v' : List UInt8}
    (hleaf : w.db.mem.deref node = some (.leaf k' v')) (hne : key ≠ k') :
    ∀ v, ¬ w.tree.Binds key v := by
  obtain ⟨sl, slot, depth, hlooks⟩ := h.looks honly
  have hread := hlooks.read (.inl hvalid)
  obtain ⟨body, hbody⟩ := hinv.tree_of_read hread
  have hlinked := hinv.leaf_of_mem hleaf (by rw [(Tree.deref_eq_some_iff.mp hbody).1]; simp)
  exact hinv.tree.unbound_of_leaf hread hlooks.start hlinked hne

/-- While its section is valid, the prefix of a node is what was read of it. -/
theorem AtInner.passed {len shared : Nat} (h : w.AtInner t key node rem nodeCs P N) (hinv : Inv K w)
    (hgood : GoodKeys K) (hk : key ∈ K) (hP : ∀ n, P n → n.keyPrefix.length = len ∧
      n.keyPrefix.getSharedLength (ArtKey.getU64 rem) = shared)
    (hge : ¬ shared < len) (hrem1 : ArtKey.shiftRight rem len = .ok rem1)
    (hb : ArtKey.byteAt rem1 0 = .ok b) (honly : w.insertsOnly) (hlive : w.Live t nodeCs) :
    ∃ sl slot depth, w.tree.At w.path key sl slot depth rem ∧ w.tree.graph.read slot = some node ∧
      w.Passed key node b (depth + len) rem1 := by
  obtain ⟨depth, hinside⟩ := h.inside honly hlive
  obtain ⟨n, hn, -⟩ := h.kids hlive
  obtain ⟨hPn, sl, slot, hat, hread⟩ := hinside.at hinv hn
  obtain ⟨rfl, rfl⟩ := hP n hPn
  exact ⟨sl, slot, depth, hat, hread, hinv.passed hgood hk hat hread hn hge hrem1 hb⟩

/-- The loop has loaded a child while the section of its node was valid. -/
theorem AtInner.seeks {rem2 : κ} (h : w.AtInner t key node rem nodeCs P N) (hinv : Inv K w)
    (hlen : ∀ k ∈ K, k.length ≤ key.length) (hvalid : w.db.Valid nodeCs)
    (hN : ∀ n, N n → n.findChild b = some (ci, i) ∧ n.slot i = some child)
    (hpassed : w.insertsOnly → ∃ depth, w.Passed key node b depth rem1)
    (hrem2 : ArtKey.shiftRight rem1 1 = .ok rem2) :
    w.Seeks t key nodeCs child rem2 ∧ (w.path node).length < (w.path child).length := by
  obtain ⟨n, hn, hNn⟩ := h.kids (t := t) (.inl hvalid)
  obtain ⟨hfind, hslot⟩ := hN n hNn
  have hread : w.tree.graph.read (.child node b) = some child := by
    rw [Tree.graph_read_child hn]
    exact kids_child (hinv.tree.wf (Tree.deref_eq_some_iff.mp hn).1) hfind hslot
  obtain ⟨body, hbody⟩ := hinv.tree_of_read hread
  have hknown := hinv.known hbody
  refine ⟨⟨h.nodeBegun, hknown, hinv.path_length_le hlen hread, fun honly => ?_⟩, ?_⟩
  · obtain ⟨depth, hpassed⟩ := hpassed honly
    have hkids : w.Live t nodeCs → ∃ n, w.tree.deref node = some (.inode n) ∧
        n.findChild b = some (ci, i) ∧ n.slot i = some child := fun hlive => by
      obtain ⟨n', hn', hNn'⟩ := h.kids hlive
      exact ⟨n', hn', hN n' hNn'⟩
    exact ⟨_, _, _, hpassed.looks hinv h.nodeSite h.nodeBegun hkids hknown (hinv.below hread) hrem2⟩
  · have hstart := (hinv.tree.graph.start_isPrefix hread).length_le
    rw [Radix.Slot.start_child, List.length_append, List.length_singleton] at hstart
    exact hstart

end World

namespace OlcDb

namespace Meets

open World

variable {α β κ : Type} [LawfulArtKey κ] {K : Set (List UInt8)} {t : Nat} {kit : Kit}
  {G : World sizes → Prop} {Q : α → World sizes → Prop} {key : List UInt8}
  {parentCs nodeCs : CriticalSection}
  {node : NodePtr} {rem : κ} {P N : INode NodePtr → Prop} {f : INode NodePtr → β}

/-! ## 2. Reading -/

theorem readInner {k : β → OlcM sizes α} (hG : Lasting K t G) (hlocks : kit.locks = [])
    (htype : node.type ≠ .leaf)
    (hk : ∀ r, (∃ n, f n = r) → Meets K t kit
      (fun w : World sizes => w.AtInner t key node rem nodeCs (fun n => P n ∧ f n = r) N ∧ G w) (k r) Q) :
    Meets K t kit (fun w : World sizes => w.AtInner t key node rem nodeCs P N ∧ G w)
      (OlcDb.reading [nodeCs] node f >>= k) Q := by
  refine reading ((lasting_atInner t key node rem nodeCs P N).and hG).steady htype
    (fun _ hw => hw.1.known) ?_ hk
  rintro w m r hinv hhas ⟨hat, hw⟩ hm hr
  refine ⟨hat.readPrefix hm fun hlive => hr fun cs hcs => ?_, hw⟩
  rw [List.mem_singleton.mp hcs]
  exact hhas.valid_of_live hlocks hlive

theorem readInnerKids {k : β → OlcM sizes α} (hG : Lasting K t G) (hlocks : kit.locks = [])
    (htype : node.type ≠ .leaf)
    (hf : ∀ {n n' : INode NodePtr}, n'.childrenCount = n.childrenCount → n'.layout = n.layout →
      f n' = f n)
    (hk : ∀ r, Meets K t kit
      (fun w : World sizes => w.AtInner t key node rem nodeCs P (fun n => N n ∧ f n = r) ∧ G w) (k r) Q) :
    Meets K t kit (fun w : World sizes => w.AtInner t key node rem nodeCs P N ∧ G w)
      (OlcDb.reading [nodeCs] node f >>= k) Q := by
  refine reading ((lasting_atInner t key node rem nodeCs P N).and hG).steady htype
    (fun _ hw => hw.1.known) ?_ fun r _ => hk r
  rintro w m r hinv hhas ⟨hat, hw⟩ hm hr
  refine ⟨hat.readKids hinv hm (fun hlive => hr fun cs hcs => ?_) hf, hw⟩
  rw [List.mem_singleton.mp hcs]
  exact hhas.valid_of_live hlocks hlive

theorem loadInner {k : Option NodePtr → OlcM sizes α} (hG : Lasting K t G) (hlocks : kit.locks = [])
    (htype : node.type ≠ .leaf) (i : Nat)
    (hk : ∀ r, Meets K t kit
      (fun w : World sizes => w.AtInner t key node rem nodeCs P (fun n => N n ∧ n.slot i = r) ∧ G w)
      (k r) Q) :
    Meets K t kit (fun w : World sizes => w.AtInner t key node rem nodeCs P N ∧ G w)
      (OlcDb.loadChild nodeCs (.child node.addr i) >>= k) Q := by
  refine loading ((lasting_atInner t key node rem nodeCs P N).and hG).steady htype
    (fun _ hw => hw.1.known) i ?_ hk
  rintro w m r hinv hhas ⟨hat, hw⟩ hm hr
  refine ⟨hat.readKids hinv hm (fun hlive => hr (hhas.valid_of_live hlocks hlive)) ?_, hw⟩
  intro n n' hcount hlayout
  rw [INode.eq_of_kids hcount hlayout]
  rfl

/-- A check after which the key is known to be absent, unless keys are removed. -/
theorem checkAbsent {F : World sizes → Prop} {cs : CriticalSection} {p q : OlcM sizes α}
    (hF : Lasting K t F)
    (habsent : ∀ ⦃w : World sizes⦄, Inv K w → F w → w.insertsOnly → w.db.Valid cs →
      ∀ v, ¬ w.tree.Binds key v)
    (hp : Meets K t { request := .get key }
      (fun w : World sizes => w.insertsOnly → w.Saw t (.found none)) p Q)
    (hq : Meets K t { request := .get key } F q Q) :
    Meets K t { request := .get key } F
      (OlcDb.check cs >>= fun b => if b = true then p else q) Q := by
  refine checkWith hF.steady (fun w hinv _ hw hvalid => ?_) hp hq
  by_cases honly : w.insertsOnly
  · exact .inr ⟨.found none, habsent hinv hw honly hvalid, fun _ => withSaw_saw w t _⟩
  · exact .inl fun h => absurd h honly

/-! ## 3. The loop -/

/-- What an attempt at a lookup comes to. -/
def Answered (t : Nat) (key : List UInt8) : Option (Option (List UInt8)) → World sizes → Prop
  | none, w => w.Has t { request := .get key }
  | some none, w => w.Has t { request := .get key } ∧ (w.insertsOnly → w.Saw t (.found none))
  | some (some v), w => w.Has t { request := .get key } ∧ w.Saw t (.found (some v))

variable {k : κ} (hgood : GoodKeys K) (hkK : ArtKey.getKeyView k ∈ K)
  (hlen : ∀ k' ∈ K, k'.length ≤ (ArtKey.getKeyView k).length)

theorem getRetry {F : World sizes → Prop} (hF : Lasting K t F) :
    Meets K t { request := .get key } F (pure none) (Answered t key) :=
  ret hF.steady fun _ _ hhas _ => hhas

theorem getAbsent : Meets K t { request := .get key }
    (fun w : World sizes => w.insertsOnly → w.Saw t (.found none))
    (pure (some none)) (Answered t key) :=
  ret (lasting_saw t _).only.steady fun _ _ hhas hw => ⟨hhas, hw⟩

include hgood hkK hlen

theorem getLoop (htotal : ArtKey.Total κ) (fuel : Nat) :
    Meets K t { request := .get (ArtKey.getKeyView k) }
      (fun w : World sizes => w.Seeks t (ArtKey.getKeyView k) parentCs node rem ∧
        w.Near (ArtKey.getKeyView k) node fuel)
      (OlcDb.getLoop k fuel node parentCs rem) (Answered t (ArtKey.getKeyView k)) := by
  induction fuel generalizing node parentCs rem with
  | zero =>
    refine of_imp of_false fun w _ _ hw => ?_
    have hle := hw.1.length_le
    have hlt := hw.2.2
    omega
  | succ fuel ih =>
    -- The node lies where the key leads, and the fuel covers what is left of the key.
    have hseek : Lasting K t (_ : World sizes → Prop) :=
      (lasting_seeks t (ArtKey.getKeyView k) parentCs node rem).and
        (lasting_near (ArtKey.getKeyView k) node (fuel + 1))
    rw [OlcDb.getLoop]
    refine tryReadLock hseek (fun w hw a ha => ⟨node, Site.node.inj ha, hw.1.known⟩)
      (getRetry hseek) fun version => ?_
    have hbegun := hseek.and (lasting_begun (⟨.node node.addr, version⟩ : CriticalSection))
    -- A leaf decides, an inner node leads on.
    by_cases hleaf : node.type = .leaf
    · simp only [if_pos hleaf]
      refine checkWith (G := fun w => w.Begun ⟨.node node.addr, version⟩ ∧ w.Known node ∧
          (w.insertsOnly → w.Known node ∧ w.SawOther t (ArtKey.getKeyView k) node (.found none)))
        hbegun.steady (fun w hinv _ hw hvalid => ?_) ?_ (getRetry hbegun)
      · obtain ⟨⟨hseeks, -⟩, hnode⟩ := hw
        -- With another key's leaf at the end of the path the key is absent at this moment.
        by_cases hother : w.insertsOnly ∧ ∃ k' v', w.db.mem.deref node = some (.leaf k' v') ∧
            ArtKey.getKeyView k ≠ k'
        · obtain ⟨honly, k', v', hmem, hne⟩ := hother
          exact .inr ⟨.found none, hseeks.absent hinv hvalid honly hmem hne,
            ⟨hnode.site, hnode.atLeast⟩, hseeks.known,
            fun _ => ⟨hseeks.known, fun _ _ => withSaw_saw w t _⟩⟩
        · exact .inl ⟨hnode, hseeks.known, fun honly => ⟨hseeks.known, fun hmem hne =>
            absurd ⟨honly, _, _, hmem, hne⟩ hother⟩⟩
      have hlate : Lasting K t (_ : World sizes → Prop) :=
        (lasting_begun (⟨.node node.addr, version⟩ : CriticalSection)).and
        ((lasting_known node).and
          (lasting_sawOther t (ArtKey.getKeyView k) node (.found none)).only)
      refine readLeaf hlate hleaf (fun _ hw => hw.2.1) fun k' v' => ?_
      by_cases heq : ArtKey.cmp k k' = 0
      · simp only [if_pos heq]
        obtain rfl := (ArtKey.cmp_eq_zero_iff k k').mp heq
        have hat : Lasting K t (_ : World sizes → Prop) :=
          lasting_leafAt (⟨.node node.addr, version⟩ : CriticalSection) node
          (ArtKey.getKeyView k) v'
        refine of_imp (checkSaw (r := .found (some v')) hat (fun w hinv hw hvalid => ?_) ?_
          (getRetry hat)) fun w _ _ hw => ⟨rfl, hw.1.1, hw.2.1, hw.2.2⟩
        · exact ⟨node.addr, (Tree.deref_eq_some_iff.mp (hw.linked (t := t) hinv (.inl hvalid))).1⟩
        · exact ret (lasting_saw t _).steady fun w _ hhas hw => ⟨hhas, hw⟩
      · simp only [if_neg heq]
        have hne : ArtKey.getKeyView k ≠ k' := fun h => heq ((ArtKey.cmp_eq_zero_iff k k').mpr h)
        have hsaw : Lasting K t fun w : World sizes => w.insertsOnly → w.Saw t (.found none) :=
          (lasting_saw t _).only
        exact of_imp (check hsaw.steady (fun _ _ _ hw _ => hw) getAbsent (getRetry hsaw))
          fun w _ _ hw honly => (hw.1.2.2 honly).2 hw.2.2 hne
    · simp only [if_neg hleaf]
      refine check (G := fun w => w.AtInner t (ArtKey.getKeyView k) node rem
          ⟨.node node.addr, version⟩ (fun _ => True) (fun _ => True) ∧
          w.Near (ArtKey.getKeyView k) node (fuel + 1)) hbegun.steady
        (fun w hinv _ hw hvalid => ⟨hw.1.1.atInner hinv hvalid rfl hw.2 hleaf, hw.1.2⟩) ?_
        (getRetry hbegun)
      have hnear : Lasting K t (_ : World sizes → Prop) :=
        lasting_near (ArtKey.getKeyView k) node (fuel + 1)
      refine readInner hnear rfl hleaf fun len hlenEx => readInner hnear rfl hleaf fun shared _ =>
        ite (fun hlt => ?_) fun hge => ?_
      -- The key leaves the prefix: it is absent while the section is valid.
      · have hat : Lasting K t (_ : World sizes → Prop) := (lasting_atInner t (ArtKey.getKeyView k) node rem
          ⟨.node node.addr, version⟩ (fun n => (True ∧ n.keyPrefix.length = len) ∧
            n.keyPrefix.getSharedLength (ArtKey.getU64 rem) = shared) fun _ => True).and hnear
        refine checkAbsent hat (fun w hinv hw honly hvalid => ?_) getAbsent (getRetry hat)
        obtain ⟨n, hn, -⟩ := hw.1.kids (t := t) (.inl hvalid)
        obtain ⟨depth, hinside⟩ := hw.1.inside honly (t := t) (.inl hvalid)
        obtain ⟨⟨⟨-, rfl⟩, rfl⟩, sl, slot, hplace, hread⟩ := hinside.at hinv hn
        exact hinv.tree.unbound_of_prefix hread hplace.start hn
          (hplace.not_path_isPrefix hinv.tree hread hn (hinv.tree.stays hgood.prefixFree hkK) hlt)
      by_cases heq : shared = len
      swap
      -- Lengths of two prefixes: the assertion fails, which the specification allows.
      · rw [assertThat, if_neg heq]
        exact throw ⟨.inr rfl, fun _ => rfl⟩
      rw [assertThat_pos heq]
      have hcap : len ≤ keyPrefixCapacity := by
        obtain ⟨n, rfl⟩ := hlenEx
        exact n.keyPrefix.length_le_capacity
      refine lift ⟨(), rfl⟩ fun _ _ => lift (htotal.shiftRight rem hcap) fun rem1 hrem1 =>
        lift (htotal.byteAt rem1) fun b hb => ?_
      have hP : ∀ n : INode NodePtr, (True ∧ n.keyPrefix.length = len) ∧
          n.keyPrefix.getSharedLength (ArtKey.getU64 rem) = shared → n.keyPrefix.length = len ∧
            n.keyPrefix.getSharedLength (ArtKey.getU64 rem) = shared := fun n hn => ⟨hn.1.2, hn.2⟩
      refine readInnerKids hnear rfl hleaf
        (fun hcount hlayout => by rw [INode.findChild_of_kids hcount hlayout]) fun r => ?_
      cases r with
      | none =>
        -- No child at the byte: absent, if the node is still as it was.
        have hat : Lasting K t (_ : World sizes → Prop) := (lasting_atInner t (ArtKey.getKeyView k) node rem
          ⟨.node node.addr, version⟩ (fun n => (True ∧ n.keyPrefix.length = len) ∧
            n.keyPrefix.getSharedLength (ArtKey.getU64 rem) = shared)
            fun n => True ∧ n.findChild b = none).and hnear
        refine checkAbsent hat (fun w hinv hw honly hvalid => ?_) getAbsent (getRetry hat)
        obtain ⟨n, hn, -, hfind⟩ := hw.1.kids (t := t) (.inl hvalid)
        obtain ⟨sl, slot, depth, hplace, hread, hpassed⟩ :=
          hw.1.passed hinv hgood hkK hP hge hrem1 hb honly (t := t) (.inl hvalid)
        exact hinv.tree.unbound_of_gap hread hplace.start hn hpassed.next
          (((hinv.tree.wf (Tree.deref_eq_some_iff.mp hn).1).findChild_eq_none_iff b).mp hfind)
      | some r =>
        obtain ⟨ci, i⟩ := r
        refine loadInner hnear rfl hleaf i fun child => ?_
        refine lift (htotal.shiftRight rem1 (n := 1) (by decide)) fun rem2 hrem2 => ?_
        have hat : Lasting K t (_ : World sizes → Prop) := (lasting_atInner t (ArtKey.getKeyView k) node rem
          ⟨.node node.addr, version⟩ (fun n => (True ∧ n.keyPrefix.length = len) ∧
            n.keyPrefix.getSharedLength (ArtKey.getU64 rem) = shared)
            fun n => (True ∧ n.findChild b = some (ci, i)) ∧ n.slot i = child).and hnear
        refine check (G := fun w => ∃ c, child = some c ∧ w.Seeks t (ArtKey.getKeyView k)
            ⟨.node node.addr, version⟩ c rem2 ∧ w.Near (ArtKey.getKeyView k) c fuel)
          hat.steady (fun w hinv hhas hw hvalid => ?_)
          (of_exists fun child => of_pure fun hchild => ?_) (getRetry hat)
        · obtain ⟨hat, hnear⟩ := hw
          -- The child that was loaded is the one at the byte.
          obtain ⟨n, hn, ⟨-, hfind⟩, hslot⟩ := hat.kids (t := t) (.inl hvalid)
          obtain ⟨c, -, hslot', -⟩ :=
            (hinv.tree.wf (Tree.deref_eq_some_iff.mp hn).1).findChild_eq_some hfind
          obtain rfl : child = some c := hslot.symm.trans hslot'
          obtain ⟨hseeks, hlt⟩ := hat.seeks hinv hlen hvalid (fun n hn => ⟨hn.1.2, hn.2⟩)
            (fun honly => by
              obtain ⟨-, -, depth, -, -, hpassed⟩ :=
                hat.passed hinv hgood hkK hP hge hrem1 hb honly (t := t) (.inl hvalid)
              exact ⟨_, hpassed⟩) hrem2
          refine ⟨c, rfl, hseeks, hseeks.known, ?_⟩
          have hfuel := hnear.2
          omega
        · subst hchild
          refine lift ⟨child, rfl⟩ fun _ hchild => ?_
          obtain rfl := Except.ok.inj hchild
          exact ih

/-- `try_get` among any other operations. -/
theorem tryGet (htotal : ArtKey.Total κ) :
    Meets K t { request := .get (ArtKey.getKeyView k) } (fun _ : World sizes => True) (OlcDb.tryGet k)
      (Answered t (ArtKey.getKeyView k)) := by
  rw [OlcDb.tryGet]
  refine tryReadLock (Lasting.const True) (fun w _ => w.knownSite_root)
    (getRetry (Lasting.const True)) fun version => ?_
  have hbegun : Lasting K t (_ : World sizes → Prop) :=
    (Lasting.const (K := K) (t := t) True).and (lasting_begun ⟨.root, version⟩)
  refine loadRoot hbegun (fun _ hw => hw.2) fun root => ?_
  have hroot : Lasting K t (_ : World sizes → Prop) := lasting_atRoot t version root
  cases root with
  | none =>
    exact checkAbsent hroot (fun w hinv hw _ hvalid =>
      hinv.tree.unbound_of_empty (hw.root (t := t) (.inl hvalid))) getAbsent (getRetry hroot)
  | some node =>
    refine check hroot.steady (fun w hinv _ hw hvalid => ?_)
      (getLoop hgood hkK hlen htotal _) (getRetry hroot)
    have hread : w.tree.graph.read .root = some node := hw.root (t := t) (.inl hvalid)
    refine ⟨⟨hw.begun, hw.known node rfl, hinv.path_length_le hlen hread,
      fun _ => ⟨_, _, _, hw.looks⟩⟩, hw.known node rfl, ?_⟩
    rw [LawfulArtKey.size_eq]
    omega

end Meets

end OlcDb

end Unodb
