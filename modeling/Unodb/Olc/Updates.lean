import Unodb.Olc.Commits

/-!
# Attempts at an update

What the attempts of `insert_internal` and `remove_internal` have in common: the keys for which the
descent does not fail, what an attempt comes to, and what the loop knows of a node that it passes or
whose lock it has upgraded.
-/

open Arrays

namespace Unodb

/-- Keys of which none starts another one, and which part within eight bytes wherever they do. -/
structure GoodKeys (K : Set (List UInt8)) : Prop where
  prefixFree : Radix.PrefixFree K
  spaced : ∀ S ⊆ K, Radix.Spaced 7 S

/-- Keys of which a byte can be read, and as many bytes dropped as a key prefix has at most, wherever
    the key ends. -/
structure ArtKey.Total (κ : Type) [ArtKey κ] : Prop where
  byteAt : ∀ k : κ, ∃ b, ArtKey.byteAt k 0 = .ok b
  shiftRight : ∀ (k : κ) {n : Nat}, n ≤ keyPrefixCapacity → ∃ k', ArtKey.shiftRight k n = .ok k'

theorem U64Key.total : ArtKey.Total U64Key where
  byteAt k := ⟨_, if_pos (by decide)⟩
  shiftRight k n hn := ⟨_, if_pos (Nat.le_succ_of_le hn)⟩

namespace World

variable {κ : Type} [LawfulArtKey κ] {K : Set (List UInt8)} {w w' : World sizes} {t : Nat}
  {key : List UInt8} {parentCs nodeCs cs : CriticalSection} {sl : Slot}
  {slot : Radix.Slot NodePtr UInt8} {node : NodePtr} {depth len : Nat} {rem rem1 rem2 : κ}
  {P N : INode NodePtr → Prop} {b : UInt8} {kit : Kit}

/-! ## 1. Attempts -/

/-- What an attempt begins with: the leaf of an earlier one, if that has made one. -/
def Kit.begin (request : Request) (body : Body) (cachedLeaf : Option NodePtr) : Kit where
  nodes := cachedLeaf.toList.map fun leaf => (leaf.addr, body)
  request := request

/-- What an attempt comes to: it has made the update, it has found that there is nothing to do, or it
    has done nothing and must be repeated. -/
def Attempted (t : Nat) (request : Request) (body : Body) : Attempt → World sizes → Prop
  | .restart cachedLeaf, w => (∀ leaf, cachedLeaf = some leaf → leaf.type = .leaf) ∧
      w.Has t (.begin request body cachedLeaf)
  | .done true, w => w.Has t { request, did := true }
  | .done false, w => w.Has t { request } ∧ w.Saw t (.updated false)

theorem Attempted.restart {request : Request} {body : Body} {x : Nat}
    (h : w.Has t { request, nodes := [(x, body)] }) :
    Attempted t request body (.restart (some ⟨x, .leaf⟩)) w :=
  ⟨fun leaf hleaf => by rw [← Option.some.inj hleaf], h⟩

/-! ## 2. The way down -/

/-- The loop has matched the path of a node and one more byte of the key. -/
structure Passed (w : World sizes) (key : List UInt8) (node : NodePtr) (b : UInt8) (depth : Nat)
    (rem : κ) : Prop where
  known : w.Known node
  next : w.path node ++ [b] <+: key
  length : (w.path node ++ [b]).length = depth + 1
  byte : key[depth]? = some b
  rem : ∃ rem2, ArtKey.shiftRight rem 1 = .ok rem2 ∧ LawfulArtKey.Rem rem2 (key.drop (depth + 1))

theorem lasting_passed (key : List UInt8) (node : NodePtr) (b : UInt8) (depth : Nat) (rem : κ) :
    Lasting K t fun w : World sizes => w.Passed key node b depth rem := by
  intro w w' _ _ hkeeps h
  obtain ⟨hknown, hpath, -⟩ := hkeeps.known h.known
  exact ⟨hknown, by rw [hpath]; exact h.next, by rw [hpath]; exact h.length, h.byte, h.rem⟩

/-- What was read of the prefix of a node is right. -/
theorem Inv.passed {n : INode NodePtr} (hinv : Inv K w) (hgood : GoodKeys K) (hk : key ∈ K)
    (hat : w.tree.At w.path key sl slot depth rem) (hread : w.tree.graph.read slot = some node)
    (hn : w.tree.deref node = some (.inode n))
    (hge : ¬ n.keyPrefix.getSharedLength (ArtKey.getU64 rem) < n.keyPrefix.length)
    (hrem1 : ArtKey.shiftRight rem n.keyPrefix.length = .ok rem1)
    (hb : ArtKey.byteAt rem1 0 = .ok b) :
    w.Passed key node b (depth + n.keyPrefix.length) rem1 := by
  obtain ⟨-, r1, b', rem2, hr1, hb', hrem2, hnext, hbyte, hlength, hrem⟩ :=
    hat.pass hinv.tree hread hn (hinv.tree.stays hgood.prefixFree hk) hge
  cases hrem1.symm.trans hr1
  cases hb.symm.trans hb'
  exact ⟨hinv.known hn, hnext, hlength, hbyte, rem2, hrem2, hrem⟩

/-- Both sections of a node are valid: what was read of the prefix is right. -/
theorem AtNode.passed (h : w.AtNode t key parentCs sl slot node depth rem nodeCs P N)
    (hinv : Inv K w) (hgood : GoodKeys K) (hk : key ∈ K) {shared : Nat}
    (hP : ∀ n, P n → n.keyPrefix.length = len ∧
      n.keyPrefix.getSharedLength (ArtKey.getU64 rem) = shared)
    (hge : ¬ shared < len) (hrem1 : ArtKey.shiftRight rem len = .ok rem1)
    (hb : ArtKey.byteAt rem1 0 = .ok b) (hparent : w.Live t parentCs) (hnode : w.Live t nodeCs) :
    w.Passed key node b (depth + len) rem1 := by
  obtain ⟨n, hn, -⟩ := h.kids hnode
  obtain ⟨hlen, hshared⟩ := hP n (h.sure hparent hnode n hn)
  subst hlen hshared
  exact hinv.passed hgood hk (h.at hparent) (h.read hparent) hn hge hrem1 hb

/-- What an inner node has on a byte, as a loop finds it. -/
theorem kids_child {n : INode NodePtr} {ci i : Nat} {child : NodePtr} (hwf : n.WF)
    (hfind : n.findChild b = some (ci, i)) (hslot : n.slot i = some child) :
    n.child b = some child := by
  obtain ⟨q, hq, hslot', -⟩ := hwf.findChild_eq_some hfind
  rw [hq, ← hslot', hslot]

/-- A linked inner node is one in memory. -/
theorem Inv.mem_inode (h : Inv K w) {n : INode NodePtr} (hn : w.tree.deref node = some (.inode n)) :
    ∃ m, w.db.mem.deref node = some (.inode m) := by
  obtain ⟨hheap, htype⟩ := Tree.deref_eq_some_iff.mp hn
  obtain ⟨body, hbody, hwithin, -⟩ := h.body hheap
  obtain ⟨m, rfl, -⟩ := hwithin.inode
  exact ⟨m, Tree.deref_eq_some_iff.mpr ⟨hbody, hwithin.type_eq.trans htype⟩⟩

/-- A leaf in memory that is linked is that leaf. -/
theorem Inv.leaf_of_mem (hinv : Inv K w) {k u : List UInt8}
    (hmem : w.db.mem.deref node = some (.leaf k u)) (hin : w.tree.heap node.addr ≠ none) :
    w.tree.deref node = some (.leaf k u) := by
  obtain ⟨body, hbody⟩ := Option.ne_none_iff_exists'.mp hin
  obtain ⟨hheap, htype⟩ := Tree.deref_eq_some_iff.mp hmem
  obtain ⟨body', hbody', hwithin, -⟩ := hinv.body hbody
  cases hheap.symm.trans hbody'
  cases body with
  | leaf k v =>
    obtain ⟨rfl, rfl⟩ := hwithin
    exact Tree.deref_eq_some_iff.mpr ⟨hbody, htype⟩
  | inode n => cases hwithin

/-- The key of a linked leaf goes on where the path to its place ends. -/
theorem Inv.below (hinv : Inv K w) {k' u' : List UInt8} (hread : w.tree.graph.read slot = some node)
    (hleaf : w.db.mem.deref node = some (.leaf k' u')) : slot.start w.path <+: k' := by
  obtain ⟨body, hbody⟩ := hinv.tree_of_read hread
  have hlinked := hinv.leaf_of_mem hleaf (by rw [(Tree.deref_eq_some_iff.mp hbody).1]; simp)
  obtain ⟨m, hm, hstart⟩ := hinv.tree.graph.live hread
  rw [Tree.graph_node_leaf_iff.mpr hlinked, Option.some_inj] at hm
  subst hm
  exact hstart.2

/-- The head of the loop one level below. -/
theorem Passed.looks (h : w.Passed key node b depth rem1) (hinv : Inv K w)
    (hsite : nodeCs.lock = .node node.addr) (hbegun : w.Begun nodeCs) {ci i : Nat} {child : NodePtr}
    (hkids : w.Live t nodeCs → ∃ n, w.tree.deref node = some (.inode n) ∧
      n.findChild b = some (ci, i) ∧ n.slot i = some child)
    (hchild : w.Known child)
    (hbelow : ∀ {k' u'}, w.db.mem.deref child = some (.leaf k' u') → w.path node ++ [b] <+: k')
    (hrem2 : ArtKey.shiftRight rem1 1 = .ok rem2) :
    w.Looks t key nodeCs (.child node.addr i) (.child node b) child (depth + 1) rem2 where
  site := hsite.symm
  begun := hbegun
  known := hchild
  holder p b' heq := by
    cases heq
    exact h.known
  below := hbelow
  slotAt hlive := by
    obtain ⟨n, hn, hfind, -⟩ := hkids hlive
    exact .child hn hfind
  read hlive := by
    obtain ⟨n, hn, hfind, hslot⟩ := hkids hlive
    rw [Tree.graph_read_child hn]
    exact kids_child (hinv.tree.wf (Tree.deref_eq_some_iff.mp hn).1) hfind hslot
  start := h.next
  depth_eq := h.length
  rem_drop := by
    obtain ⟨r2, hr2, hrem⟩ := h.rem
    cases hrem2.symm.trans hr2
    exact hrem

/-- The first place. -/
theorem AtRoot.looks {k : κ} {version : Nat} (h : w.AtRoot t version (some node)) :
    w.Looks t (ArtKey.getKeyView k) ⟨.root, version⟩ .root .root node 0 k where
  site := rfl
  begun := h.begun
  known := h.known node rfl
  holder _ _ heq := nomatch heq
  below _ := List.nil_prefix
  slotAt _ := .root
  read hlive := h.root hlive
  start := List.nil_prefix
  depth_eq := rfl
  rem_drop := LawfulArtKey.rem_self k

/-! ## 3. Leaves -/

/-- The thread has begun a section of a leaf. -/
structure LeafAt (w : World sizes) (leafCs : CriticalSection) (leaf : NodePtr) (k u : List UInt8) :
    Prop where
  leafSite : leafCs.lock = .node leaf.addr
  leafBegun : w.Begun leafCs
  known : w.Known leaf
  mem : w.db.mem.deref leaf = some (.leaf k u)

theorem lasting_leafAt (leafCs : CriticalSection) (leaf : NodePtr) (k u : List UInt8) :
    Lasting K t fun w : World sizes => w.LeafAt leafCs leaf k u :=
  fun _ _ hinv hinv' hkeeps h => ⟨h.leafSite, lasting_begun leafCs hinv hinv' hkeeps h.leafBegun,
    (hkeeps.known h.known).1, (hkeeps.known h.known).2.2 h.mem⟩

/-- A leaf that is not obsolete is linked. -/
theorem LeafAt.linked {leafCs : CriticalSection} {leaf : NodePtr} {k u : List UInt8}
    (h : w.LeafAt leafCs leaf k u) (hinv : Inv K w) (hlive : w.Live t leafCs) :
    w.tree.deref leaf = some (.leaf k u) := by
  obtain ⟨body, hbody⟩ := hinv.linked_of_known h.known (h.leafSite ▸ hlive.ne_obsolete)
  refine hinv.leaf_of_mem h.mem ?_
  rw [(Tree.deref_eq_some_iff.mp hbody).1]
  simp

/-- The loop has begun a section of the leaf at its place too. -/
structure AtLeaf (w : World sizes) (t : Nat) (key : List UInt8) (parentCs : CriticalSection) (sl : Slot)
    (slot : Radix.Slot NodePtr UInt8) (node : NodePtr) (depth : Nat) (rem : κ)
    (nodeCs : CriticalSection) (k' u' : List UInt8) : Prop
    extends Looks w t key parentCs sl slot node depth rem, LeafAt w nodeCs node k' u'

theorem lasting_atLeaf (t : Nat) (key : List UInt8) (parentCs : CriticalSection) (sl : Slot)
    (slot : Radix.Slot NodePtr UInt8) (node : NodePtr) (depth : Nat) (rem : κ)
    (nodeCs : CriticalSection) (k' u' : List UInt8) :
    Lasting K t fun w : World sizes => w.AtLeaf t key parentCs sl slot node depth rem nodeCs k' u' :=
  fun _ _ hinv hinv' hkeeps h =>
    { lasting_looks t key parentCs sl slot node depth rem hinv hinv' hkeeps h.toLooks,
      lasting_leafAt nodeCs node k' u' hinv hinv' hkeeps h.toLeafAt with }

/-- Two good keys that part below a place do so within eight bytes. -/
theorem AtLeaf.parts {k' u' : List UInt8}
    (h : w.AtLeaf t key parentCs sl slot node depth rem nodeCs k' u') (hinv : Inv K w)
    (hgood : GoodKeys K) (hk : key ∈ K) (hne : key ≠ k') (hparent : w.Live t parentCs)
    (hnode : w.Live t nodeCs) :
    (depth ≤ k'.length ∧ slot.start w.path ++ k'.drop depth = k' ∧
      ¬ k'.drop depth <+: key.drop depth ∧ ¬ key.drop depth <+: k'.drop depth) ∧
      (k'.drop depth).take 8 ≠ (key.drop depth).take 8 := by
  have hread := h.read hparent
  have hleaf := h.toLeafAt.linked hinv hnode
  refine ⟨(h.at hparent).rests_of_leaf hinv.tree hgood.prefixFree hk hread hleaf hne, ?_⟩
  have hspaced : Radix.Spaced 7 (insert key w.tree.Keys) := by
    refine hgood.spaced _ (Set.insert_subset hk ?_)
    rintro x ⟨v, hx⟩
    obtain ⟨p, hp⟩ := Tree.binds_iff.mpr hx
    exact hinv.tree.graph.key_mem hp
  have hparts := hinv.tree.partsSoon hgood.prefixFree hk hspaced slot node k' u' hread h.start hleaf hne
  rw [h.depth_eq] at hparts
  exact hparts

/-- No node is below a leaf. -/
theorem Inv.clean_of_leaf (hinv : Inv K w) {k' u' : List UInt8}
    (hleaf : w.db.mem.deref node = some (.leaf k' u')) : w.Clean (.node node.addr) := by
  intro slot p n n' hslot hread
  cases slot with
  | root => cases hslot
  | child q b =>
    obtain ⟨m, hm, -⟩ := Tree.read_child_iff.mp hread
    obtain ⟨m', hm'⟩ := hinv.mem_inode hm
    have hheap := (Tree.deref_eq_some_iff.mp hm').1
    rw [show q.addr = node.addr from Site.node.inj hslot,
      (Tree.deref_eq_some_iff.mp hleaf).1] at hheap
    cases hheap

/-! ## 4. Nodes under lock -/

theorem CleanAt.tidy (h : w.CleanAt t cs) (hinv : Inv K w)
    (hlocked : w.db.lock cs.lock = .locked cs.version t) :
    w.Tidy t cs.lock fun _ => False where
  own := .inl ⟨_, hlocked⟩
  linked a ha := h.1.linked hinv (.inr hlocked) (q := ⟨a, .leaf⟩) ha
  right hslot _ hread hn hn' := h.2 (.inr hlocked) hslot hread hn hn'

/-- A tidy place stays clean. -/
theorem Tidy.clean {l : Site} (h : w.Tidy t l fun _ => False) : w.Clean l :=
  fun hslot hread hn hn' => h.right hslot not_false hread hn hn'

/-- Both sections of an inner node are upgraded. -/
theorem AtNode.grip (h : w.AtNode t key parentCs sl slot node depth rem nodeCs P N)
    (hinv : Inv K w) (hclean : w.CleanAt t parentCs)
    (hparent : w.db.lock parentCs.lock = .locked parentCs.version t)
    (hnode : w.db.lock nodeCs.lock = .locked nodeCs.version t) :
    ∃ n, w.Grip t sl slot node (.inode n) (.inode n) ∧ P n ∧ N n := by
  obtain ⟨n, hn, hN⟩ := h.kids (.inr hnode)
  obtain ⟨m, hm⟩ := hinv.mem_inode hn
  obtain ⟨hcount, hlayout⟩ := hinv.mem_of_live h.nodeSite (.inr hnode) hn hm
  have hpre := hclean.2 (.inr hparent) h.site (h.read (.inr hparent))
    (Tree.deref_eq_some_iff.mp hn).1 (Tree.deref_eq_some_iff.mp hm).1
  have heq : m = n := by
    rw [INode.eq_of_kids hcount hlayout, hpre]
  refine ⟨n, ⟨?_, ?_, h.slotAt (.inr hparent), h.read (.inr hparent), hn, heq ▸ hm⟩,
    h.sure (.inr hparent) (.inr hnode) n hn, hN⟩
  · rw [h.site]
    exact .inl ⟨_, hparent⟩
  · rw [← h.nodeSite]
    exact .inl ⟨_, hnode⟩

end World

end Unodb
