import Unodb.Olc.Watch
import Unodb.Olc.Reading

/-!
# A lookup amid complete updates

`try_get` reads a tree to which other threads apply complete insertions and removals between its
reads.  What it comes to is right for some instant of the call, unless a removal collapses a node
onto an inner node whose key prefix is what it reads next: the version of that node stays the same.
-/

namespace Unodb

namespace OlcDb

/-- The tree stores the value under the key. -/
def Binds (o : OlcDb sizes) (k v : List UInt8) : Prop :=
  ∃ p, o.mem.Reaches p ∧ o.mem.deref p = some (.leaf k v)

/-- Runs of one `try_get` of a key from a state: the states of its instants so far, the last one first,
    and what is left of it.  Between two of its actions another thread may make an update alone, where
    `may` allows it. -/
inductive Lookup (may : OlcM sizes Answer → OlcDb sizes → Call (BitVec 64) → Prop) (k : BitVec 64)
    (o₀ : OlcDb sizes) : List (OlcDb sizes) → OlcM sizes Answer → Prop where
  | start : Lookup may k o₀ [o₀] (tryGet (U64Key.make k))
  | act {o o' os β f c b} {g : β → OlcM sizes Answer} :
      Lookup may k o₀ (o :: os) (.atomic f g) → Untorn (.atomic f g) c → f c o = some (b, o') →
      Lookup may k o₀ (o' :: o :: os) (g b)
  | update {o o' os p c r} : Lookup may k o₀ (o :: os) p → IsUpdate c → may p o c →
      Performs U64Key.make o (c, r) o' → Lookup may k o₀ (o' :: o :: os) p

/-- What is promised of a lookup with these instants: if the key is bound to one value at all of them,
    the call finds it or restarts, and if it is bound at none of them, it finds nothing or restarts. -/
structure LookupLaw (k : BitVec 64) (os : List (OlcDb sizes)) (p : OlcM sizes Answer) : Prop where
  bound : ∀ v, (∀ o ∈ os, o.Binds (Db.view U64Key.make k) v) → p.Over →
    p = .ret none ∨ p = .ret (some (some v))
  unbound : (∀ o ∈ os, ∀ v, ¬ o.Binds (Db.view U64Key.make k) v) → p.Over →
    p = .ret none ∨ p = .ret (some none)

/-- The update does not collapse a node onto the inner node whose key prefix the lookup reads next. -/
def SparesPrefix (p : OlcM sizes Answer) (o : OlcDb sizes) (c : Call (BitVec 64)) : Prop :=
  ∀ a, ReadsPrefix p a → ¬ LeavesOver U64Key.make o c a

/-! ## 1. Its loop -/

namespace Watch

variable {κ : Type} [LawfulArtKey κ] {K : Set (List UInt8)} {w : Watch sizes} {o : OlcDb sizes}
  {k rem rem1 rem2 : κ} {node c : NodePtr} {parentCs nodeCs : CriticalSection} {n m : INode NodePtr}
  {u : List UInt8} {P : Prop} {fuel len shared i ci : Nat} {b : UInt8}

section Shown

variable (hshown : Shows K (ArtKey.getKeyView k) node rem n u o) (hfree : Radix.PrefixFree K)
  (hk : ArtKey.getKeyView k ∈ K)
include hshown hfree hk

/-- The key goes on from the node with the next byte. -/
theorem Shows.next (hge : ¬ n.keyPrefix.getSharedLength (ArtKey.getU64 rem) < n.keyPrefix.length)
    (hrem1 : ArtKey.shiftRight rem n.keyPrefix.length = .ok rem1) (hb : ArtKey.byteAt rem1 0 = .ok b)
    (hrem2 : ArtKey.shiftRight rem1 1 = .ok rem2) :
    u ++ [b] <+: ArtKey.getKeyView k ∧
      LawfulArtKey.Rem rem2 ((ArtKey.getKeyView k).drop (u ++ [b]).length) := by
  obtain ⟨path, sl, slot, depth, h, rfl, hat, hread, hp⟩ := hshown
  obtain ⟨-, r1, b', r2, hr1, hb', hr2, hnext, -, hlength, hrem⟩ :=
    hat.pass h hread hp (h.stays hfree hk) hge
  cases hrem1.symm.trans hr1
  cases hb.symm.trans hb'
  cases hrem2.symm.trans hr2
  exact ⟨hnext, hlength ▸ hrem⟩

end Shown

theorem Shows.slot {key : List UInt8} (h : Shows K key node rem n u o)
    (hfind : n.findChild b = some (ci, i)) : ∃ c, n.slot i = some c := by
  obtain ⟨path, sl, slot, depth, h, -, -, -, hp⟩ := h
  obtain ⟨c, -, hslot, -⟩ := (h.wf (Tree.deref_eq_some_iff.mp hp).1).findChild_eq_some hfind
  exact ⟨c, hslot⟩

/-- Where a place holds a leaf, its key and value tell what the tree binds. -/
theorem Seeks.right (h : w.Seeks (ArtKey.getKeyView k) parentCs node rem fuel) (hinv : Inv K w)
    (hvalid : w.db.Valid parentCs) {k' v' : List UInt8}
    (hp : w.db.counted.deref node = some (.leaf k' v')) :
    w.Right (ArtKey.getKeyView k) (if ArtKey.cmp k k' = 0 then some v' else none) := by
  obtain ⟨sl, slot, depth, -, hat, hread⟩ := h.place hvalid
  refine ⟨w.db, hinv.present, fun v => ?_⟩
  by_cases heq : ArtKey.cmp k k' = 0
  · obtain rfl := (ArtKey.cmp_eq_zero_iff k k').mp heq
    have hbind : w.db.counted.Binds (ArtKey.getKeyView k) v' :=
      ⟨node.addr, (Tree.deref_eq_some_iff.mp hp).1⟩
    rw [if_pos heq, Option.some_inj]
    exact ⟨fun hv => hv ▸ hbind, fun hv => hinv.tree.binds_unique hbind hv⟩
  · rw [if_neg heq]
    exact iff_of_false nofun
      (hinv.tree.unbound_of_leaf hread hat.start hp (mt (ArtKey.cmp_eq_zero_iff k k').mpr heq) v)

/-- A section of an inner node is begun before that of the place ends: its prefix is read next. -/
theorem Seeks.window (h : w.Seeks (ArtKey.getKeyView k) parentCs node rem fuel) (hinv : Inv K w)
    (hvalid : w.db.Valid parentCs) (hsite : nodeCs.lock = .node node.addr) (hbegun : w.Begun nodeCs)
    (hp : w.db.counted.deref node = some (.inode n)) :
    w.InWindow nodeCs node n (w.path node) True n.keyPrefix.length ∧
      ∃ o ∈ w.past, Shows K (ArtKey.getKeyView k) node rem n (w.path node) o := by
  obtain ⟨sl, slot, depth, -, hat, hread⟩ := h.place hvalid
  have hmem := hinv.known hp
  have hsame : ∀ m, w.db.mem.deref node = some (.inode m) → m = n := by
    intro m hm
    cases hm.symm.trans hmem
    rfl
  refine ⟨⟨⟨hsite, hbegun, rfl, ⟨n, hmem⟩, fun _ => ⟨trivial, fun m hm => ?_⟩⟩, fun m hm => ?_⟩,
    w.db, hinv.present, w.path, sl, slot, depth, hinv.tree, rfl, hat, hread, hp⟩
  · rw [hsame m hm]
    exact ⟨rfl, rfl⟩
  · rw [hsame m hm]
    exact ⟨Nat.le_refl _, fun _ => rfl⟩

theorem AtInner.readKids {β : Type} (h : w.AtInner nodeCs node n u P)
    (hm : w.db.mem.deref node = some (.inode m)) {f : INode NodePtr → β} {r : β}
    (hr : w.db.Valid nodeCs → r = f m)
    (hf : m.childrenCount = n.childrenCount → m.layout = n.layout → f m = f n) :
    w.AtInner nodeCs node n u (P ∧ r = f n) :=
  { h with
    kids := fun hvalid => by
      obtain ⟨hP, hkids⟩ := h.kids hvalid
      exact ⟨⟨hP, (hr hvalid).trans (hf (hkids m hm).1 (hkids m hm).2)⟩, hkids⟩ }

/-- A child has been loaded while the section of its node was valid. -/
theorem AtInner.seeks (h : w.AtInner nodeCs node n u P) (hinv : Inv K w)
    (hlen : ∀ k' ∈ K, k'.length ≤ (ArtKey.getKeyView k).length) (hvalid : w.db.Valid nodeCs)
    (hfind : n.findChild b = some (ci, i)) (hslot : n.slot i = some c)
    (hnext : u ++ [b] <+: ArtKey.getKeyView k)
    (hrem : LawfulArtKey.Rem rem2 ((ArtKey.getKeyView k).drop (u ++ [b]).length))
    (hfuel : (ArtKey.getKeyView k).length < fuel + 1 + u.length) :
    w.Seeks (ArtKey.getKeyView k) nodeCs c rem2 fuel := by
  obtain ⟨m, hm⟩ := h.inode
  obtain ⟨hcount, hlayout⟩ := (h.kids hvalid).2 m hm
  have hnode : w.db.lock (.node node.addr) = .free nodeCs.version := h.site ▸ hvalid
  have hlinked := hinv.linked hnode hm
  have hfind' : m.findChild b = some (ci, i) := by
    rw [INode.findChild_of_kids hcount hlayout, hfind]
  have hslot' : m.slot i = some c := by
    rw [← hslot, INode.eq_of_kids hcount hlayout]
    rfl
  have hread : w.db.counted.graph.read (.child node b) = some c := by
    rw [Tree.graph_read_child hlinked]
    exact World.kids_child (hinv.tree.wf (Tree.deref_eq_some_iff.mp hlinked).1) hfind' hslot'
  obtain ⟨body, hbody⟩ := hinv.tree.body_of_read hread
  have hstart := (hinv.tree.graph.start_isPrefix hread).length_le
  rw [Radix.Slot.start_child, List.length_append, List.length_singleton, h.path_eq] at hstart
  refine ⟨h.begun, ⟨body, hinv.known hbody⟩, hinv.path_length_le hlen hread, by omega, fun _ => ?_⟩
  refine ⟨.child node.addr i, .child node b, (u ++ [b]).length, h.site, ?_, hread⟩
  have hpath : (Radix.Slot.child node b).start w.path = u ++ [b] := by
    rw [Radix.Slot.start_child, h.path_eq]
  exact ⟨.child hlinked hfind', hpath ▸ hnext, congrArg List.length hpath, hrem⟩

/-- The root pointer has been loaded within its section. -/
structure AtRoot (w : Watch sizes) (version : Nat) (root : Option NodePtr) : Prop where
  begun : w.Begun ⟨.root, version⟩
  known : ∀ node, root = some node → ∃ body, w.db.mem.deref node = some body
  root : w.db.Valid ⟨.root, version⟩ → w.db.mem.root = root

theorem lasting_atRoot {still : Nat → Prop} (version : Nat) (root : Option NodePtr) :
    Lasting K still fun w : Watch sizes => w.AtRoot version root := by
  intro w w' hinv hinv' hmoves h
  refine ⟨lasting_begun _ hinv hinv' hmoves h.begun, fun node hnode => ?_, fun hvalid' => ?_⟩
  · obtain ⟨body, hbody⟩ := h.known node hnode
    obtain ⟨body', hbody', -⟩ := hmoves.deref hbody
    exact ⟨body', hbody'⟩
  · obtain ⟨left, hpasses, -⟩ := hmoves.passes
    have hvalid := hmoves.valid h.begun hvalid'
    exact (hpasses.root version hvalid hvalid').trans (h.root hvalid)

/-- While its section is valid, the root pointer leads to where the search begins. -/
theorem AtRoot.seeks {version : Nat} (h : w.AtRoot version (some node)) (hinv : Inv K w)
    (hlen : ∀ k' ∈ K, k'.length ≤ (ArtKey.getKeyView k).length)
    (hvalid : w.db.Valid ⟨.root, version⟩) :
    w.Seeks (ArtKey.getKeyView k) ⟨.root, version⟩ node k (ArtKey.size k + 1) := by
  have hread : w.db.counted.graph.read .root = some node := h.root hvalid
  refine ⟨h.begun, h.known node rfl, hinv.path_length_le hlen hread, ?_,
    fun _ => ⟨.root, .root, 0, rfl, Tree.At.root _ _ _, hread⟩⟩
  rw [LawfulArtKey.size_eq]
  omega

end Watch

namespace Watch

variable {κ : Type} [LawfulArtKey κ] {K : Set (List UInt8)} {k rem : κ} {node : NodePtr}
  {parentCs : CriticalSection}

variable (hfree : Radix.PrefixFree K) (hk : ArtKey.getKeyView k ∈ K)
  (hlen : ∀ k' ∈ K, k'.length ≤ (ArtKey.getKeyView k).length) (htotal : ArtKey.Total κ)
include hfree hk hlen htotal

end Watch

/-! ## 2. Its runs -/

theorem Mirrors.binds_iff {s : Db dbSizes} {K : Set (List UInt8)} {path : NodePtr → List UInt8}
    {o : OlcDb sizes} (hm : o.Mirrors s) (h : s.tree.Inv K path) {k v : List UInt8} :
    o.Binds k v ↔ o.counted.Binds k v := by
  rw [hm.tree]
  constructor
  · rintro ⟨p, hreaches, hp⟩
    obtain ⟨slot, hread⟩ := hm.read_of_reaches h hreaches
    obtain ⟨body, hbody⟩ := h.body_of_read hread
    cases hp.symm.trans (hm.deref hbody)
    exact ⟨p.addr, (Tree.deref_eq_some_iff.mp hbody).1⟩
  · rintro ⟨a, ha⟩
    have hp : s.tree.deref ⟨a, .leaf⟩ = some (.leaf k v) := Tree.deref_eq_some_iff.mpr ⟨ha, rfl⟩
    obtain ⟨slot, hread⟩ := h.graph.pointed (Tree.graph_node_leaf_iff.mpr hp)
    exact ⟨_, hm.reaches_of_read h hread, hm.deref hp⟩

section Runs

variable {k : BitVec 64} {o₀ o o' : OlcDb sizes} {os : List (OlcDb sizes)} {p : OlcM sizes Answer}

/-- The state of an instant is the mirror of a `db`. -/
def Sound (o : OlcDb sizes) : Prop :=
  ∃ (s : Db sizes) (path : _) (lost : _), o.Mirrors s ∧ s.Inv Db.u64Views path lost

/-- What a lookup knows at the last of these instants, and what may become of it. -/
structure Underway (k : BitVec 64) (os : List (OlcDb sizes)) (p : OlcM sizes Answer)
    (w : Watch sizes) : Prop where
  past : w.past = os
  present : os.head? = some w.db
  inv : w.Inv Db.u64Views
  sound : ∀ o ∈ os, o.Sound
  amid : (Watch.reader Db.u64Views).Amid (Watch.Answered (Db.view U64Key.make k)) (fun _ _ => False) p w

theorem Watch.Inv.sound {w : Watch sizes} (h : w.Inv Db.u64Views) : w.db.Sound := by
  obtain ⟨s, lost, hm, hinv⟩ := h.mirrors
  exact ⟨s, w.path, lost, hm, hinv⟩

/-- Another instant, to which the others have led. -/
theorem Underway.other {w w' : Watch sizes} (h : Underway k (o :: os) p w) (hinv : w'.Inv Db.u64Views)
    (hmoves : w.Moves (ReadsPrefix p) w') : Underway k (w'.db :: o :: os) p w' where
  past := by rw [hmoves.past, h.past]
  present := rfl
  inv := hinv
  sound := List.forall_mem_cons.mpr ⟨hinv.sound, h.sound⟩
  amid := h.amid.other hmoves hinv

theorem Underway.act {β : Type} {f : Choice → OlcDb sizes → Option (β × OlcDb sizes)}
    {g : β → OlcM sizes Answer} {c : Choice} {b : β} {w : Watch sizes}
    (h : Underway k (o :: os) (.atomic f g) w) (hc : Untorn (.atomic f g) c)
    (hf : f c o = some (b, o')) :
    ∃ w', Underway k (o' :: o :: os) (g b) w' := by
  obtain rfl : o = w.db := Option.some_inj.mp h.present
  obtain ⟨ho', hamid⟩ := h.amid.act hc hf
  obtain rfl : o' = w.db := ho'
  have hthen : Underway k (w.db :: os) (g b) w := { h with amid := hamid }
  have hinv : Watch.Inv Db.u64Views { w with past := w.db :: w.past } :=
    ⟨h.inv.mirrors, List.mem_cons_self⟩
  have hmoves : w.Moves (ReadsPrefix (g b)) { w with past := w.db :: w.past } :=
    ⟨⟨fun _ => False, (Restored.refl _).passes _, fun _ _ => id⟩, fun _ _ _ => rfl, rfl⟩
  have hother := hthen.other hinv hmoves
  exact ⟨_, hother⟩

theorem Underway.update {c : Call (BitVec 64)} {r : Except Fault Output} {w : Watch sizes}
    (h : Underway k (o :: os) p w) (hupdate : IsUpdate c) (hspares : SparesPrefix p o c)
    (hperforms : Performs U64Key.make o (c, r) o') : ∃ w', Underway k (o' :: o :: os) p w' := by
  obtain rfl : o = w.db := Option.some_inj.mp h.present
  obtain ⟨s, lost, hm, hinv⟩ := h.inv.mirrors
  obtain ⟨s', path', hm', hinv', hpath, hpasses⟩ := hperforms.passes hm hinv Db.u64Views_prefixFree
    (Db.keyIn_u64 Db.view_mem_u64Views c) hupdate (hperforms.completes_u64 hm hinv)
  have hlater : Watch.Inv Db.u64Views ⟨o', path', o' :: w.past⟩ :=
    ⟨⟨s', lost, hm', hinv'⟩, List.mem_cons_self⟩
  have hmoves : w.Moves (ReadsPrefix p) ⟨o', path', o' :: w.past⟩ := by
    refine ⟨⟨_, hpasses, hspares⟩, fun q body hq => hpath q ?_, rfl⟩
    by_contra hge
    cases (Tree.deref_eq_some_iff.mp hq).1.symm.trans (hm.fresh (Nat.le_of_not_lt hge))
  have hother := h.other hlater hmoves
  exact ⟨_, hother⟩

theorem Underway.law {w : Watch sizes} (h : Underway k os p w) : LookupLaw k os p := by
  have hbinds : ∀ o ∈ os, ∀ v, o.counted.Binds (Db.view U64Key.make k) v ↔
      o.Binds (Db.view U64Key.make k) v := by
    intro o ho v
    obtain ⟨s, path, lost, hm, hinv⟩ := h.sound o ho
    exact (hm.binds_iff hinv.tree).symm
  cases p with
  | throw e => exact h.amid.of_throw.elim
  | atomic f g => exact ⟨fun _ _ hover => hover.elim, fun _ hover => hover.elim⟩
  | ret a =>
    cases a with
    | none => exact ⟨fun _ _ _ => .inl rfl, fun _ _ => .inl rfl⟩
    | some r =>
      obtain ⟨o, ho, hright⟩ := h.amid.of_ret
      rw [h.past] at ho
      refine ⟨fun v hbound _ => .inr ?_, fun hunbound _ => .inr ?_⟩
      · rw [(hright v).mpr ((hbinds o ho v).mpr (hbound o ho))]
      · cases r with
        | none => rfl
        | some v => exact absurd ((hbinds o ho v).mp ((hright v).mp rfl)) (hunbound o ho v)

end Runs

/-! ## 3. A collapse in between -/

section Misled

variable {may : OlcM sizes Answer → OlcDb sizes → Call (BitVec 64) → Prop} {k : BitVec 64}
  {o₀ o : OlcDb sizes} {os : List (OlcDb sizes)} {p : OlcM sizes Answer}

/-- A lookup goes on for some actions. -/
theorem Lookup.after (h : Lookup may k o₀ (o :: os) p) (hp : p.Reads) (count : Nat) :
    ∃ os', (∀ x ∈ os', x ∈ o :: os) ∧ Lookup may k o₀ (o :: os') (p.after {} o count) ∧
      (p.after {} o count).Reads := by
  have hstay : ∃ os', (∀ x ∈ os', x ∈ o :: os) ∧ Lookup may k o₀ (o :: os') p ∧ p.Reads :=
    ⟨os, fun x hx => List.mem_cons_of_mem o hx, h, hp⟩
  induction count generalizing os p with
  | zero => exact hstay
  | succ count ih =>
    cases p with
    | ret a => exact hstay
    | throw e => exact hstay
    | atomic f g =>
      rw [Prog.after]
      cases hf : f {} o with
      | none => exact hstay
      | some r =>
        obtain ⟨b, o'⟩ := r
        obtain rfl : o' = o := hp.1 _ _ _ _ hf
        have hnext := h.act (fun _ => rfl) hf
        obtain ⟨os', hos, hlookup⟩ := ih hnext (hp.2 b)
          ⟨o' :: os, fun x hx => List.mem_cons_of_mem o' hx, hnext, hp.2 b⟩
        refine ⟨os', fun x hx => ?_, hlookup⟩
        rcases List.mem_cons.mp (hos x hx) with rfl | hx
        · exact List.mem_cons_self
        · exact hx

/-- The node that these bytes lead to, from the root. -/
def reached (t : Tree) (bytes : List UInt8) : Option NodePtr :=
  bytes.foldl (fun p b => p.bind fun p => match t.deref p with
    | some (.inode n) => n.child b
    | _ => none) t.root

end Misled

end OlcDb

end Unodb
