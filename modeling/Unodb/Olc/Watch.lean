import Unodb.Olc.Versions
import Unodb.Olc.Updates
import Unodb.Util.Amid

/-!
# What a lookup knows amid complete updates

Between two reads of a lookup other threads make complete updates.  A version that is the same as
before tells the lookup that the node has the same children.  Its key prefix may have grown, if the
node has been left over by a collapse; for the rest it is enough that this does not come right before
the prefix is read.
-/

namespace Unodb

namespace OlcDb

/-- What `try_get` comes to: nothing if it must restart, else what it has found. -/
abbrev Answer := Option (Option (List UInt8))

/-- What the next action of the program finds depends on the key prefix of the node at this address. -/
def ReadsPrefix {α : Type} : OlcM sizes α → Nat → Prop
  | .atomic f _, a => ∃ c o n keyPrefix, o.mem.heap a = some (.inode n) ∧
      (f c (o.written a { n with keyPrefix })).map Prod.fst ≠ (f c o).map Prod.fst
  | .ret _, _ | .throw _, _ => False

/-- What a read may find while no update is under way: a key prefix is read in one load, the children in
    several, between which the node may change. -/
def Untorn {α : Type} (p : OlcM sizes α) (c : Choice) : Prop :=
  (∃ a, ReadsPrefix p a) → c.torn = none

/-! ## 1. What an update leaves to a reader -/

/-- What a reader may rely on when the state changes: locks that look the same protect the same, and
    key prefixes grow only at the nodes in `left`. -/
structure Passes (o o' : OlcDb sizes) (left : Nat → Prop) : Prop where
  lock : ∀ l version, (o.lock l).AtLeast version →
    (o'.lock l).AtLeast version ∧ (o'.lock l = .free version → o.lock l = .free version)
  root : ∀ version, o.lock .root = .free version → o'.lock .root = .free version →
    o'.mem.root = o.mem.root
  rooted : ∀ q version, o.mem.root = some q → o.lock (.node q.addr) = .free version →
    o'.lock (.node q.addr) = .free version → o'.mem.root = some q
  node : ∀ a version n, o.lock (.node a) = .free version → o'.lock (.node a) = .free version →
    o.mem.heap a = some (.inode n) → ∃ n', o'.mem.heap a = some (.inode n') ∧
      n'.childrenCount = n.childrenCount ∧ n'.layout = n.layout ∧ (¬ left a → n' = n)
  ages : ∀ a body, o.mem.heap a = some body → ∃ body', o'.mem.heap a = some body' ∧
    body.Ages (left a) body'

variable {κ E : Type} [LawfulArtKey κ] {K : Set (List UInt8)} {path : NodePtr → List UInt8}
  {lost : NodeType → Nat} {o o' : OlcDb sizes} {s s' : Db dbSizes} {bumped : List Site}
  {killed spared : List Nat} {encode : E → κ} {c : Call E}

/-- A node that is not obsolete is in the tree. -/
theorem Mirrors.linked {p : NodePtr} {body : Body} {version : Nat} (hm : o.Mirrors s)
    (hfree : o.lock (.node p.addr) = .free version) (hp : o.mem.deref p = some body) :
    s.tree.deref p = some body := by
  obtain ⟨hheap, htype⟩ := Tree.deref_eq_some_iff.mp hp
  refine Tree.deref_eq_some_iff.mpr ⟨?_, htype⟩
  rw [← hm.tree, counted_heap, if_neg, hheap]
  intro hretired
  obtain ⟨r, hr, hrp⟩ := List.mem_map.mp hretired
  cases (hrp ▸ hm.obsolete (t := r.1) (p := r.2) hr).symm.trans hfree

theorem Restored.passes (h : Restored o o') (left : Nat → Prop) : Passes o o' left := by
  obtain ⟨-, h⟩ := h
  have hmem : o'.mem = o.mem := by rw [h]
  have hlock : o'.lock = o.lock := by rw [h]
  constructor
  · intro l version hat
    rw [hlock]
    exact ⟨hat, id⟩
  · intro version _ _
    rw [hmem]
  · intro q version hq _ _
    rw [hmem, hq]
  · intro a version n _ _ ha
    exact ⟨n, hmem ▸ ha, rfl, rfl, fun _ => rfl⟩
  · intro a body ha
    exact ⟨body, hmem ▸ ha, .refl body⟩

theorem Writes.passes (hw : Writes o o' bumped killed spared) (hm : o.Mirrors s) :
    Passes o o' (· ∈ spared) := by
  have hlock : ∀ l, (∃ version, o.lock l = .free version ∧ o'.lock l = .free (version + 1)) ∨
      o'.lock l = .obsolete ∨ o'.lock l = o.lock l := by
    intro l
    by_cases hbumped : l ∈ bumped
    · exact .inl (hw.bump l hbumped)
    by_cases hkilled : ∃ a ∈ killed, l = .node a
    · obtain ⟨a, ha, rfl⟩ := hkilled
      exact .inr (.inl (hw.kill a ha).2)
    · exact .inr (.inr (hw.lock l hbumped fun a ha heq => hkilled ⟨a, ha, heq⟩))
  have hkeeps : ∀ {l version}, o.lock l = .free version → o'.lock l = .free version →
      l ∉ bumped ∧ ∀ a ∈ killed, l ≠ .node a := by
    intro l version hfree hfree'
    constructor
    · intro hbumped
      obtain ⟨v, hv, hv'⟩ := hw.bump l hbumped
      cases hfree.symm.trans hv
      cases hfree'.symm.trans hv'
    · rintro a ha rfl
      cases hfree'.symm.trans (hw.kill a ha).2
  constructor
  · intro l version hat
    rcases hlock l with ⟨v, hv, hv'⟩ | hobs | hsame
    · rw [hv] at hat ⊢
      rw [hv']
      have hle : version ≤ v := hat
      refine ⟨Nat.le_succ_of_le hle, fun heq => ?_⟩
      cases heq
      omega
    · rw [hobs]
      exact ⟨trivial, nofun⟩
    · rw [hsame]
      exact ⟨hat, id⟩
  · intro version hfree hfree'
    exact hw.root (hkeeps hfree hfree').1
  · intro q version hq hfree hfree'
    obtain ⟨hbumped, hkilled⟩ := hkeeps hfree hfree'
    by_cases hroot : .root ∈ bumped
    · rcases hw.rooted hroot q hq with hmem | hmem
      · exact absurd hmem hbumped
      · exact absurd rfl (hkilled _ hmem)
    · exact (hw.root hroot).trans hq
  · intro a version n hfree hfree' ha
    obtain ⟨hbumped, hkilled⟩ := hkeeps hfree hfree'
    by_cases hspared : a ∈ spared
    · obtain ⟨-, -, m, m', hm₀, hm', hrest, -⟩ := hw.prefixes a hspared
      cases hm₀.symm.trans ha
      refine ⟨m', hm', ?_, ?_, fun hnot => absurd hspared hnot⟩ <;> rw [hrest]
    · have hlt : a < o.next := by
        by_contra hge
        rw [hm.fresh (hm.next ▸ Nat.le_of_not_lt hge)] at ha
        cases ha
      have hsame := hw.node a hlt hbumped (fun hk => hkilled a hk rfl) hspared
      exact ⟨n, hsame.trans ha, rfl, rfl, fun _ => rfl⟩
  · exact hw.ages

/-- What a complete update does, whether it returns or throws. -/
theorem Performs.passes {r : Except Fault Output} (hperforms : Performs encode o (c, r) o')
    (hm : o.Mirrors s) (h : s.Inv K path lost) (hfree : Radix.PrefixFree K)
    (hc : c.KeyIn {k | Db.view encode k ∈ K}) (hupdate : IsUpdate c) (hcompletes : Completes r) :
    ∃ (s' : Db dbSizes) (path' : _), o'.Mirrors s' ∧ s'.Inv K path' lost ∧
      (∀ q : NodePtr, q.addr < s.next → path' q = path q) ∧ Passes o o' (LeavesOver encode o c) := by
  obtain ⟨me, rounds, choices, hexec⟩ := hperforms
  cases r with
  | error fault =>
    obtain ⟨r', o₁, hexec₁, -, hfails⟩ := (call_ends (P := fun _ => True) me rounds encode hm h hfree
      hc).exec choices fun _ => trivial
    obtain ⟨rfl, rfl⟩ := Prod.mk.inj (Option.some_inj.mp (hexec₁.symm.trans hexec))
    have hrestored : Restored o o₁ := by
      rcases hfails fault rfl with ⟨hrestored, -⟩ | ⟨rfl, -⟩ | ⟨rfl, -⟩
      · exact hrestored
      · exact .refl _
      · cases hcompletes
    exact ⟨_, path, hm.restored hrestored, h.restored (hm.next ▸ hrestored.1), fun _ _ => rfl,
      hrestored.passes _⟩
  | ok out =>
    obtain ⟨r', o₁, hexec₁, hok, -⟩ := (call_carries (P := fun _ => True) me rounds hm h hfree hc
      hupdate).exec choices fun _ => trivial
    obtain ⟨rfl, rfl⟩ := Prod.mk.inj (Option.some_inj.mp (hexec₁.symm.trans hexec))
    obtain ⟨s', spared, hstep, hspared⟩ := hok out rfl
    rcases hstep with ⟨rfl, -⟩ | hcarries
    · exact ⟨s, path, hm, h, fun _ _ => rfl, (Restored.refl _).passes _⟩
    · obtain ⟨bumped, killed, hwrites⟩ := hcarries.writes
      obtain ⟨path', hinv, hpath⟩ := hcarries.inv
      have hleft : (· ∈ spared) = LeavesOver encode o c := funext fun a => propext (hspared a)
      exact ⟨s', path', hm.of_writes hwrites hcarries.stores, hinv, hpath, hleft ▸ hwrites.passes hm⟩

/-! ## 2. What a lookup knows -/

/-- The present state of a lookup, with the strings that lead to the nodes and the states of its
    instants so far. -/
structure Watch (sizes : Sizes) where
  db : OlcDb sizes
  path : NodePtr → List UInt8
  past : List (OlcDb sizes)

namespace Watch

/-- At every instant the state is the mirror of a `db`. -/
structure Inv (K : Set (List UInt8)) (w : Watch sizes) : Prop where
  mirrors : ∃ (s : Db sizes) (lost : _), w.db.Mirrors s ∧ s.Inv K w.path lost
  present : w.db ∈ w.past

/-- Others have made an update that leaves the prefixes of the nodes in `still` as they are. -/
structure Moves (still : Nat → Prop) (w w' : Watch sizes) : Prop where
  passes : ∃ left, Passes w.db w'.db left ∧ ∀ a, still a → ¬ left a
  path : ∀ q body, w.db.mem.deref q = some body → w'.path q = w.path q
  past : w'.past = w'.db :: w.past

/-- How a lookup runs. -/
def reader (K : Set (List UInt8)) : Setting (OlcDb sizes) Choice Fault Answer (Watch sizes) where
  state := db
  inv := Inv K
  choices := Untorn
  others p := Moves (ReadsPrefix p)

/-- No such update of the others makes it false. -/
def Lasting (K : Set (List UInt8)) (still : Nat → Prop) (F : Watch sizes → Prop) : Prop :=
  ∀ ⦃w w' : Watch sizes⦄, Inv K w → Inv K w' → w.Moves still w' → F w → F w'

variable {κ : Type} [LawfulArtKey κ] {K : Set (List UInt8)} {w w' : Watch sizes} {key : List UInt8}
  {still still' : Nat → Prop} {F G : Watch sizes → Prop} {node p q : NodePtr} {body : Body}
  {parentCs nodeCs cs : CriticalSection} {rem : κ} {n m : INode NodePtr} {u : List UInt8} {P : Prop}
  {fuel version : Nat}

theorem Moves.mono (h : w.Moves still w') (hstill : ∀ a, still' a → still a) : w.Moves still' w' := by
  obtain ⟨left, hpasses, hleft⟩ := h.passes
  exact ⟨⟨left, hpasses, fun a ha => hleft a (hstill a ha)⟩, h.path, h.past⟩

theorem Lasting.mono (hF : Lasting K still F) (hstill : ∀ a, still a → still' a) :
    Lasting K still' F :=
  fun _ _ hinv hinv' hmoves => hF hinv hinv' (hmoves.mono hstill)

theorem Lasting.and (hF : Lasting K still F) (hG : Lasting K still G) :
    Lasting K still fun w => F w ∧ G w :=
  fun _ _ hinv hinv' hmoves hw => ⟨hF hinv hinv' hmoves hw.1, hG hinv hinv' hmoves hw.2⟩

theorem Inv.tree (h : Inv K w) : w.db.counted.Inv K w.path := by
  obtain ⟨s, lost, hm, hinv⟩ := h.mirrors
  rw [hm.tree]
  exact hinv.tree

theorem Inv.known (h : Inv K w) (hp : w.db.counted.deref p = some body) :
    w.db.mem.deref p = some body := by
  obtain ⟨s, lost, hm, -⟩ := h.mirrors
  rw [hm.tree] at hp
  exact hm.deref hp

/-- A node that is not obsolete is in the tree. -/
theorem Inv.linked (h : Inv K w) (hfree : w.db.lock (.node p.addr) = .free version)
    (hp : w.db.mem.deref p = some body) : w.db.counted.deref p = some body := by
  obtain ⟨s, lost, hm, -⟩ := h.mirrors
  rw [hm.tree]
  exact hm.linked hfree hp

/-- The path of a node is not longer than the keys. -/
theorem Inv.path_length_le (h : Inv K w) (hlen : ∀ k ∈ K, k.length ≤ key.length)
    {slot : Radix.Slot NodePtr UInt8} (hread : w.db.counted.graph.read slot = some node) :
    (w.path node).length ≤ key.length := by
  obtain ⟨l, k, v, hl, -, hpath⟩ := h.tree.graph.exists_leaf hread
  exact hpath.length_le.trans (hlen k (h.tree.graph.key_mem hl))

/-- A section that has been begun. -/
def Begun (w : Watch sizes) (cs : CriticalSection) : Prop := (w.db.lock cs.lock).AtLeast cs.version

theorem lasting_begun (cs : CriticalSection) : Lasting K still fun w : Watch sizes => w.Begun cs := by
  intro w w' _ _ hmoves hbegun
  obtain ⟨left, hpasses, -⟩ := hmoves.passes
  exact (hpasses.lock cs.lock cs.version hbegun).1

/-- A section that is valid has been valid since it was begun. -/
theorem Moves.valid (h : w.Moves still w') (hbegun : w.Begun cs) (hvalid : w'.db.Valid cs) :
    w.db.Valid cs := by
  obtain ⟨left, hpasses, -⟩ := h.passes
  exact (hpasses.lock cs.lock cs.version hbegun).2 hvalid

theorem Moves.deref (h : w.Moves still w') (hp : w.db.mem.deref p = some body) :
    ∃ body', w'.db.mem.deref p = some body' ∧ body.Ages (¬ still p.addr) body' := by
  obtain ⟨left, hpasses, hleft⟩ := h.passes
  obtain ⟨hheap, htype⟩ := Tree.deref_eq_some_iff.mp hp
  obtain ⟨body', hbody', hages⟩ := hpasses.ages _ _ hheap
  refine ⟨body', Tree.deref_eq_some_iff.mpr ⟨hbody', hages.type_eq.trans htype⟩, hages.mono ?_⟩
  exact fun hgrows hstill => hleft _ hstill hgrows

theorem Moves.leaf (h : w.Moves still w') {k v : List UInt8}
    (hp : w.db.mem.deref p = some (.leaf k v)) : w'.db.mem.deref p = some (.leaf k v) := by
  obtain ⟨body', hp', hages⟩ := h.deref hp
  cases body' with
  | leaf k' v' =>
    obtain ⟨rfl, rfl⟩ := hages
    exact hp'
  | inode n => cases hages

/-- The children of an inner node stay the same while its section is valid, and so does its prefix
    unless the node is left over by a collapse. -/
theorem Moves.inode (h : w.Moves still w') (hsite : cs.lock = .node p.addr) (hvalid : w.db.Valid cs)
    (hvalid' : w'.db.Valid cs) (hp : w.db.mem.deref p = some (.inode n)) :
    ∃ n', w'.db.mem.deref p = some (.inode n') ∧ n'.childrenCount = n.childrenCount ∧
      n'.layout = n.layout ∧ (still p.addr → n' = n) := by
  obtain ⟨left, hpasses, hleft⟩ := h.passes
  obtain ⟨hheap, htype⟩ := Tree.deref_eq_some_iff.mp hp
  obtain ⟨n', hn', hcount, hlayout, hsame⟩ := hpasses.node p.addr cs.version n
    (hsite ▸ hvalid) (hsite ▸ hvalid') hheap
  refine ⟨n', Tree.deref_eq_some_iff.mpr ⟨hn', ?_⟩, hcount, hlayout, fun hstill => hsame (hleft _ hstill)⟩
  exact (INode.type_of_layout hlayout).trans htype

/-- The loop has read a pointer within a section of the node that holds it. -/
structure Seeks (w : Watch sizes) (key : List UInt8) (parentCs : CriticalSection) (node : NodePtr)
    (rem : κ) (fuel : Nat) : Prop where
  begun : w.Begun parentCs
  known : ∃ body, w.db.mem.deref node = some body
  length_le : (w.path node).length ≤ key.length
  near : key.length < fuel + (w.path node).length
  place : w.db.Valid parentCs → ∃ sl slot depth, parentCs.lock = sl.site ∧
    w.db.counted.At w.path key sl slot depth rem ∧ w.db.counted.graph.read slot = some node

theorem lasting_seeks (key : List UInt8) (parentCs : CriticalSection) (node : NodePtr) (rem : κ)
    (fuel : Nat) : Lasting K still fun w : Watch sizes => w.Seeks key parentCs node rem fuel := by
  intro w w' hinv hinv' hmoves h
  obtain ⟨body, hnode⟩ := h.known
  obtain ⟨body', hnode', -⟩ := hmoves.deref hnode
  have hpath := hmoves.path node body hnode
  refine ⟨lasting_begun parentCs hinv hinv' hmoves h.begun, ⟨body', hnode'⟩, hpath ▸ h.length_le,
    hpath ▸ h.near, fun hvalid' => ?_⟩
  have hvalid := hmoves.valid h.begun hvalid'
  obtain ⟨sl, slot, depth, hlock, hat, hread⟩ := h.place hvalid
  cases hat.slotAt with
  | root =>
    obtain ⟨left, hpasses, -⟩ := hmoves.passes
    have hsite : parentCs.lock = .root := hlock
    have hroot := hpasses.root parentCs.version (hsite ▸ hvalid) (hsite ▸ hvalid')
    exact ⟨.root, .root, depth, hlock, ⟨.root, List.nil_prefix, hat.depth_eq, hat.rem_drop⟩,
      hroot.trans hread⟩
  | @child p n b ci i hp hfind =>
    have hsite : parentCs.lock = .node p.addr := hlock
    obtain ⟨n', hp', hcount, hlayout, -⟩ := hmoves.inode hsite hvalid hvalid' (hinv.known hp)
    have hfree' : w'.db.lock (.node p.addr) = .free parentCs.version := hsite ▸ hvalid'
    have hlinked := hinv'.linked hfree' hp'
    have hpath : w'.path p = w.path p := hmoves.path p _ (hinv.known hp)
    have hfind' : n'.findChild b = some (ci, i) := by
      rw [INode.findChild_of_kids hcount hlayout, hfind]
    refine ⟨.child p.addr i, .child p b, depth, hlock, ⟨.child hlinked hfind', ?_, ?_, hat.rem_drop⟩, ?_⟩
    · have hstart := hat.start
      rw [Radix.Slot.start_child] at hstart ⊢
      rwa [hpath]
    · have hdepth := hat.depth_eq
      rw [Radix.Slot.start_child] at hdepth ⊢
      rwa [hpath]
    · rw [Tree.graph_read_child hlinked, INode.child_of_kids hcount hlayout, ← hread,
        Tree.graph_read_child hp]

/-- At this instant the bytes of the key led to the inner node. -/
def Shows (K : Set (List UInt8)) (key : List UInt8) (node : NodePtr) (rem : κ) (n : INode NodePtr)
    (u : List UInt8) (o : OlcDb sizes) : Prop :=
  ∃ path sl slot depth, o.counted.Inv K path ∧ path node = u ∧ o.counted.At path key sl slot depth rem ∧
    o.counted.graph.read slot = some node ∧ o.counted.deref node = some (.inode n)

/-- The loop has begun a section of an inner node, which was `n` then; while the section is valid, `P` is
    true of what the loop has read. -/
structure AtInner (w : Watch sizes) (nodeCs : CriticalSection) (node : NodePtr) (n : INode NodePtr)
    (u : List UInt8) (P : Prop) : Prop where
  site : nodeCs.lock = .node node.addr
  begun : w.Begun nodeCs
  path_eq : w.path node = u
  inode : ∃ m, w.db.mem.deref node = some (.inode m)
  kids : w.db.Valid nodeCs → P ∧ ∀ m, w.db.mem.deref node = some (.inode m) →
    m.childrenCount = n.childrenCount ∧ m.layout = n.layout

theorem lasting_atInner (nodeCs : CriticalSection) (node : NodePtr) (n : INode NodePtr)
    (u : List UInt8) (P : Prop) :
    Lasting K still fun w : Watch sizes => w.AtInner nodeCs node n u P := by
  intro w w' hinv hinv' hmoves h
  obtain ⟨m, hm⟩ := h.inode
  obtain ⟨body', hm', hages⟩ := hmoves.deref hm
  obtain ⟨m', rfl⟩ := hages.inode
  refine ⟨h.site, lasting_begun nodeCs hinv hinv' hmoves h.begun, (hmoves.path _ _ hm).trans h.path_eq,
    ⟨m', hm'⟩, fun hvalid' => ?_⟩
  have hvalid := hmoves.valid h.begun hvalid'
  obtain ⟨hP, hkids⟩ := h.kids hvalid
  refine ⟨hP, fun m₁ hm₁ => ?_⟩
  obtain ⟨m₂, hm₂, hcount, hlayout, -⟩ := hmoves.inode h.site hvalid hvalid' hm
  cases hm₁.symm.trans hm₂
  exact ⟨hcount.trans (hkids m hm).1, hlayout.trans (hkids m hm).2⟩

/-- The loop is about to read the key prefix of the inner node, which is not longer than `len`, and the one
    of `n` while the section is valid. -/
structure InWindow (w : Watch sizes) (nodeCs : CriticalSection) (node : NodePtr) (n : INode NodePtr)
    (u : List UInt8) (P : Prop) (len : Nat) : Prop extends AtInner w nodeCs node n u P where
  prefixes : ∀ m, w.db.mem.deref node = some (.inode m) → m.keyPrefix.length ≤ len ∧
    (w.db.Valid nodeCs → m.keyPrefix = n.keyPrefix)

end Watch

namespace Watch

variable {α β κ : Type} [LawfulArtKey κ] {K : Set (List UInt8)} {w w' : Watch sizes}
  {key : List UInt8} {still : Nat → Prop} {F : Watch sizes → Prop} {node : NodePtr}
  {parentCs nodeCs cs : CriticalSection} {n : INode NodePtr} {u : List UInt8} {l : Site}

/-! ## 3. Its reads -/

/-- The response is right for the tree of an instant. -/
def Right (w : Watch sizes) (key : List UInt8) (r : Option (List UInt8)) : Prop :=
  ∃ o ∈ w.past, ∀ v, r = some v ↔ o.counted.Binds key v

/-- What a lookup may come to. -/
def Answered (key : List UInt8) : Answer → Watch sizes → Prop
  | none, _ => True
  | some r, w => w.Right key r

/-- What is left of the lookup comes to that, from wherever `F` is true. -/
abbrev Holds (K : Set (List UInt8)) (key : List UInt8) (F : Watch sizes → Prop)
    (p : OlcM sizes Answer) : Prop :=
  (reader K).Holds (Answered key) (fun _ _ => False) F p

section Actions

variable (hF : Lasting K (fun _ => False) F)
include hF

theorem Lasting.keeps {p : OlcM sizes Answer} (hinv : (reader K).inv w)
    (hmoves : (reader K).others p w w') (hinv' : (reader K).inv w') (hw : F w) : F w' :=
  hF.mono (fun _ => False.elim) hinv hinv' hmoves hw

end Actions

end Watch

end OlcDb

end Unodb
