import Unodb.Olc.World

/-!
# Actions keep to the rules

Every kind of action that the programs are made of keeps the invariant and is one that a thread may
make: those that only touch a lock, those that leave the tree as it is, and those that change it.
-/

namespace Unodb

namespace Body

variable {body body' body'' : Body}

theorem SameKids.refl (body : Body) : body.SameKids body := by
  cases body with
  | leaf => exact ⟨rfl, rfl⟩
  | inode => exact ⟨rfl, rfl⟩

theorem SameKids.trans (h : body.SameKids body') (h' : body'.SameKids body'') :
    body.SameKids body'' := by
  match body, body', body'', h, h' with
  | .leaf .., .leaf .., .leaf .., h, h' => exact ⟨h'.1.trans h.1, h'.2.trans h.2⟩
  | .inode _, .inode _, .inode _, h, h' => exact ⟨h'.1.trans h.1, h'.2.trans h.2⟩

theorem SameKids.symm (h : body.SameKids body') : body'.SameKids body := by
  match body, body', h with
  | .leaf .., .leaf .., h => exact ⟨h.1.symm, h.2.symm⟩
  | .inode _, .inode _, h => exact ⟨h.1.symm, h.2.symm⟩

theorem sameKids_inode {n n' : INode NodePtr} :
    (Body.inode n).SameKids (.inode n') ↔
      n'.childrenCount = n.childrenCount ∧ n'.layout = n.layout := Iff.rfl

theorem SameKids.leaf {k v : List UInt8} (h : (Body.leaf k v).SameKids body) : body = .leaf k v := by
  match body, h with
  | .leaf .., h => rw [h.1, h.2]

theorem SameKids.inode {n : INode NodePtr} (h : (Body.inode n).SameKids body) :
    ∃ n', body = .inode n' ∧ n'.childrenCount = n.childrenCount ∧ n'.layout = n.layout := by
  match body, h with
  | .inode n', h => exact ⟨n', rfl, h⟩

end Body

namespace INode

variable {n n' : INode NodePtr}

/-- Nodes that differ in the prefix only. -/
theorem eq_of_kids (hcount : n'.childrenCount = n.childrenCount) (hlayout : n'.layout = n.layout) :
    n' = { n with keyPrefix := n'.keyPrefix } := by
  cases n
  cases n'
  simp only at hcount hlayout
  rw [hcount, hlayout]

theorem type_of_layout (hlayout : n'.layout = n.layout) : n'.type = n.type := by
  rw [type, type, hlayout]

theorem child_of_kids (hcount : n'.childrenCount = n.childrenCount)
    (hlayout : n'.layout = n.layout) : n'.child = n.child := by
  rw [eq_of_kids hcount hlayout]
  rfl

theorem findChild_of_kids (hcount : n'.childrenCount = n.childrenCount)
    (hlayout : n'.layout = n.layout) : n'.findChild = n.findChild := by
  rw [eq_of_kids hcount hlayout]
  rfl

theorem Rep.of_kids {f : UInt8 → Option NodePtr} (h : n.Rep f)
    (hcount : n'.childrenCount = n.childrenCount) (hlayout : n'.layout = n.layout) : n'.Rep f := by
  rw [eq_of_kids hcount hlayout]
  exact ⟨h.layout, h.count, h.minSize_le, h.le_capacity⟩

theorem WF.of_kids (h : n.WF) (hcount : n'.childrenCount = n.childrenCount)
    (hlayout : n'.layout = n.layout) : n'.WF := by
  rw [WF, child_of_kids hcount hlayout]
  exact Rep.of_kids h hcount hlayout

end INode

namespace Body

variable {body body' : Body}

theorem SameKids.type_eq (h : body.SameKids body') : body'.type = body.type := by
  match body, body', h with
  | .leaf .., .leaf .., _ => rfl
  | .inode _, .inode _, h => exact INode.type_of_layout h.2

theorem SameKids.within (h : body.SameKids body') : body.Within body' := by
  match body, body', h with
  | .leaf .., .leaf .., h => exact h
  | .inode _, .inode _, h =>
    refine ⟨INode.type_of_layout h.2, fun b c hb => ?_⟩
    rw [← INode.child_of_kids h.1 h.2, hb]

theorem Within.type_eq (h : body.Within body') : body'.type = body.type := by
  match body, body', h with
  | .leaf .., .leaf .., _ => rfl
  | .inode _, .inode _, h => exact h.1

theorem Within.leaf {k v : List UInt8} (h : (Body.leaf k v).Within body) : body = .leaf k v := by
  match body, h with
  | .leaf .., h => rw [h.1, h.2]

theorem Within.inode {n : INode NodePtr} (h : (Body.inode n).Within body) :
    ∃ n', body = .inode n' ∧ n'.type = n.type ∧ ∀ b c, n'.child b = some c → n.child b = some c := by
  match body, h with
  | .inode n', h => exact ⟨n', rfl, h⟩

theorem Within.of_inode {n' : INode NodePtr} (h : body.Within (.inode n')) :
    ∃ n, body = .inode n ∧ n'.type = n.type ∧ ∀ b c, n'.child b = some c → n.child b = some c := by
  match body, h with
  | .inode n, h => exact ⟨n, rfl, h⟩

theorem Within.trans {body'' : Body} (h : body.Within body') (h' : body'.Within body'') :
    body.Within body'' := by
  match body, body', body'', h, h' with
  | .leaf .., .leaf .., .leaf .., h, h' => exact ⟨h'.1.trans h.1, h'.2.trans h.2⟩
  | .inode _, .inode _, .inode _, h, h' =>
    exact ⟨h'.1.trans h.1, fun b c hb => h.2 b c (h'.2 b c hb)⟩

/-- A node that another one is the same as but for the prefix. -/
theorem SameKids.within_left {body'' : Body} (h : body'.SameKids body) (h' : body'.Within body'') :
    body.Within body'' := by
  match body, body', body'', h, h' with
  | .leaf .., .leaf .., .leaf .., h, h' => exact ⟨h'.1.trans h.1.symm, h'.2.trans h.2.symm⟩
  | .inode _, .inode _, .inode _, h, h' =>
    refine ⟨h'.1.trans (INode.type_of_layout h.2).symm, fun b c hb => ?_⟩
    rw [INode.child_of_kids h.1 h.2]
    exact h'.2 b c hb

end Body

namespace World

variable {K : Set (List UInt8)} {w w' : World sizes} {t u a : Nat} {l : Site} {p q : NodePtr}
  {slot : Radix.Slot NodePtr UInt8} {body : Body} {n m : INode NodePtr}

/-! ## 1. What the invariant says -/

theorem Inv.known (h : Inv K w) (hp : w.tree.deref p = some body) : w.Known p := by
  obtain ⟨hheap, htype⟩ := Tree.deref_eq_some_iff.mp hp
  obtain ⟨body', hbody', hwithin, -⟩ := h.body hheap
  refine ⟨⟨body', Tree.deref_eq_some_iff.mpr ⟨hbody', hwithin.type_eq.trans htype⟩⟩, .inl ?_⟩
  rw [hheap]
  simp

/-- A node that is not obsolete is linked, if other threads may know it. -/
theorem Inv.linked_of_known (h : Inv K w) (hp : w.Known p)
    (hlive : w.db.lock (.node p.addr) ≠ .obsolete) : ∃ body, w.tree.deref p = some body := by
  obtain ⟨⟨body', hbody'⟩, hcase⟩ := hp
  have hdoomed : ¬ w.doomed p.addr ≠ none := fun hd => hlive ((h.obsolete _).mpr hd)
  obtain ⟨body, hbody⟩ := Option.ne_none_iff_exists'.mp (hcase.resolve_right hdoomed)
  obtain ⟨body'', hbody'', hwithin, -⟩ := h.body hbody
  obtain ⟨hheap', htype'⟩ := Tree.deref_eq_some_iff.mp hbody'
  rw [hheap', Option.some_inj] at hbody''
  subst hbody''
  exact ⟨body, Tree.deref_eq_some_iff.mpr ⟨hbody, hwithin.type_eq.symm.trans htype'⟩⟩

theorem Inv.lt_next (h : Inv K w) (ha : w.db.mem.heap a ≠ none) : a < w.db.next := by
  by_contra hge
  exact ha (h.fresh (Nat.le_of_not_lt hge)).1

theorem Inv.mem_of_tree (h : Inv K w) (ha : w.tree.heap a ≠ none) : w.db.mem.heap a ≠ none := by
  obtain ⟨body, hbody⟩ := Option.ne_none_iff_exists'.mp ha
  obtain ⟨body', hbody', -⟩ := h.body hbody
  rw [hbody']
  simp

theorem Inv.tree_of_read (h : Inv K w) (hread : w.tree.graph.read slot = some p) :
    ∃ body, w.tree.deref p = some body := h.tree.body_of_read hread

theorem Known.not_priv (h : Inv K w) (hp : w.Known p) : w.priv p.addr = none := by
  by_contra hpriv
  obtain ⟨t, ht⟩ := Option.ne_none_iff_exists'.mp hpriv
  obtain ⟨-, htree, hdoomed, -⟩ := h.priv ht
  rcases hp.2 with hcase | hcase
  · exact hcase htree
  · exact hcase hdoomed

theorem Known.lt_next (h : Inv K w) (hp : w.Known p) : p.addr < w.db.next := by
  obtain ⟨body, hbody⟩ := hp.1
  apply h.lt_next
  rw [(Tree.deref_eq_some_iff.mp hbody).1]
  simp

/-- A thread may change what the lock protects. -/
def Owns (w : World sizes) (u : Nat) (l : Site) : Prop :=
  (∃ v, w.db.lock l = .locked v u) ∨ ∃ a, l = .node a ∧ w.DoomedBy u a

theorem Owns.not_guarded (h : Inv K w) (hu : w.Owns u l) (ht : t ≠ u) : ¬ w.Guarded t l := by
  rintro (⟨v, hv⟩ | ⟨v, hv⟩ | ⟨a, rfl, g, hg⟩)
  · rcases hu with ⟨v', hv'⟩ | ⟨a, rfl, g, hg⟩
    · rw [hv] at hv'
      cases hv'
    · rw [(h.obsolete a).mpr (by rw [hg]; simp)] at hv
      cases hv
  · rcases hu with ⟨v', hv'⟩ | ⟨a, rfl, g, hg⟩
    · rw [hv] at hv'
      cases hv'
      exact ht rfl
    · rw [(h.obsolete a).mpr (by rw [hg]; simp)] at hv
      cases hv
  · rcases hu with ⟨v', hv'⟩ | ⟨a', heq, g', hg'⟩
    · rw [(h.obsolete a).mpr (by rw [hg]; simp)] at hv'
      cases hv'
    · cases heq
      rw [hg] at hg'
      cases hg'
      exact ht rfl

theorem Owns.guarded (hu : w.Owns u l) : w.Guarded u l := .inr hu

/-- The place that points to an obsolete node that is still linked is the one of `Held`. -/
theorem Inv.held_at {d : Doom} (h : Inv K w) (hd : w.doomed p.addr = some d)
    (hread : w.tree.graph.read slot = some p) :
    w.db.lock d.guard.lock = .locked d.guard.version d.thread ∧
      (graphSite slot = d.guard.lock ∨ ∃ q, graphSite slot = .node q ∧ w.doomed q = some d) := by
  obtain ⟨body, hbody⟩ := h.tree_of_read hread
  have hin : w.tree.heap p.addr ≠ none := by
    rw [(Tree.deref_eq_some_iff.mp hbody).1]
    simp
  obtain ⟨hlock, slot', p', hp', hread', hcase⟩ := h.held hd hin
  obtain ⟨body', hbody'⟩ := h.tree_of_read hread'
  have hpp : p' = p := Tree.deref_addr_inj hbody' hbody hp'
  rw [hpp] at hread'
  rw [h.tree.graph.slot_unique hread hread']
  exact ⟨hlock, hcase⟩

/-- The place that points to an obsolete node that is still linked belongs to its thread. -/
theorem Inv.owns_of_doomed (h : Inv K w) (ha : w.DoomedBy u p.addr)
    (hread : w.tree.graph.read slot = some p) : w.Owns u (graphSite slot) := by
  obtain ⟨g, hg⟩ := ha
  obtain ⟨hlock, hcase⟩ := h.held_at hg hread
  rcases hcase with heq | ⟨q, heq, hq⟩
  · exact .inl ⟨g.version, by rw [heq]; exact hlock⟩
  · exact .inr ⟨q, heq, g, hq⟩

/-! ## 2. Locks -/

/-- The world after a lock word was stored. -/
def withLock (w : World sizes) (l : Site) (word : LockWord) : World sizes :=
  { w with db := w.db.setLock l word }

/-- The world after a node was made obsolete. -/
def doom (w : World sizes) (a : Nat) (d : Doom) : World sizes :=
  { w.withLock (.node a) .obsolete with doomed := Function.update w.doomed a (some d) }

theorem withLock_lock (w : World sizes) (l l' : Site) (word : LockWord) :
    (w.withLock l word).db.lock l' = if l' = l then word else w.db.lock l' := by
  simp only [withLock, OlcDb.setLock, Function.update_apply]

theorem doom_lock (w : World sizes) (a : Nat) (d : Doom) (l' : Site) :
    (w.doom a d).db.lock l' = if l' = .node a then .obsolete else w.db.lock l' :=
  withLock_lock w (.node a) l' .obsolete

theorem doom_doomed (w : World sizes) (a x : Nat) (d : Doom) :
    (w.doom a d).doomed x = if x = a then some d else w.doomed x := by
  simp only [doom, Function.update_apply]

theorem SamePrefix.refl (t : Tree) (a : Nat) : SamePrefix t t a := fun hn => ⟨_, hn, rfl⟩

theorem SameSite.refl (t : Tree) (l : Site) : SameSite t t l := by
  cases l with
  | root => rfl
  | node a => exact fun hbody => ⟨_, hbody, .refl _⟩

theorem Frame.refl (t : Nat) (w : World sizes) : Frame t w w where
  known hp := ⟨hp, rfl, id⟩
  lock _ := .same _
  site _ := SameSite.refl _ _
  keyPrefix _ _ := ⟨SamePrefix.refl _ _, SamePrefix.refl _ _⟩
  ownPrefix _ _ _ _ _ := ⟨SamePrefix.refl _ _, SamePrefix.refl _ _⟩
  priv _ := ⟨Iff.rfl, fun _ => rfl⟩
  doomed := id
  doomedBy ha := ⟨ha, rfl⟩
  gone _ ha := ha
  retired _ := Iff.rfl
  job := rfl
  insertsOnly := rfl

theorem Step.refl (u : Nat) (w : World sizes) : Step u w w where
  frame _ := .refl _ w
  job := .quiet rfl fun _ _ => Iff.rfl
  retired := .inl rfl

theorem Step.of_withLock {word : LockWord}
    (hword : ∀ t, t ≠ u → LockWord.Frame t (w.db.lock l) word) : Step u w (w.withLock l word) where
  frame {t} ht :=
    { Frame.refl t w with
      lock := by
        intro l'
        rw [withLock_lock]
        split
        · rename_i heq
          rw [heq]
          exact hword t ht
        · exact .same _ }
  job := .quiet rfl fun _ _ => Iff.rfl
  retired := .inl rfl

/-- The upgrade to a write lock. -/
theorem Inv.lock (h : Inv K w) {v : Nat} (hl : w.db.lock l = .free v)
    (hknown : ∀ a, l = .node a → ∃ p, p.addr = a ∧ w.Known p) (u : Nat) :
    Inv K (w.withLock l (.locked v u)) ∧ Step u w (w.withLock l (.locked v u)) := by
  refine ⟨{ h with
    clean := ?clean
    fresh := ?fresh
    priv := ?priv
    obsolete := ?obsolete
    root_live := ?root_live
    held := ?held }, .of_withLock fun t ht => hl ▸ .lock v ht.symm⟩
  case clean =>
    intro l' v' hfree
    rw [withLock_lock] at hfree
    split at hfree
    · cases hfree
    · exact h.clean hfree
  case fresh =>
    intro a ha
    refine ⟨(h.fresh ha).1, ?_⟩
    rw [withLock_lock, if_neg]
    · exact (h.fresh ha).2
    -- A locked address is one that somebody knows, so that it has been given out.
    · rintro rfl
      obtain ⟨p, rfl, hp⟩ := hknown a rfl
      exact absurd ha (Nat.not_le_of_lt (Known.lt_next (w := w) h hp))
  case priv =>
    intro a t hpriv
    obtain ⟨hmem, htree, hdoomed, hlock⟩ := h.priv hpriv
    refine ⟨hmem, htree, hdoomed, ?_⟩
    rw [withLock_lock, if_neg]
    · exact hlock
    · rintro rfl
      obtain ⟨p, rfl, hp⟩ := hknown a rfl
      have hnone : w.priv p.addr = none := hp.not_priv h
      exact nomatch hnone.symm.trans hpriv
  case obsolete =>
    intro a
    rw [withLock_lock]
    split
    · rename_i heq
      have hobs := h.obsolete a
      rw [heq, hl] at hobs
      exact ⟨fun hcon => (nomatch hcon), fun hd => (nomatch hobs.mpr hd)⟩
    · exact h.obsolete a
  case root_live =>
    rw [withLock_lock]
    split
    · simp
    · exact h.root_live
  case held =>
    intro a d hd hin
    obtain ⟨hlock, hslot⟩ := h.held hd hin
    refine ⟨?_, hslot⟩
    rw [withLock_lock, if_neg]
    · exact hlock
    · intro heq
      rw [heq, hl] at hlock
      cases hlock

/-- The release of a write lock that guards no obsolete node that is still linked. -/
theorem Inv.unlock (h : Inv K w) {v : Nat} (hl : w.db.lock l = .locked v u) (hclean : w.Clean l)
    (hguard : ∀ {a d}, w.doomed a = some d → w.tree.heap a ≠ none → d.guard.lock ≠ l) :
    Inv K (w.withLock l (.free (v + 1))) ∧ Step u w (w.withLock l (.free (v + 1))) := by
  refine ⟨{ h with
    clean := ?clean
    fresh := ?fresh
    priv := ?priv
    obsolete := ?obsolete
    root_live := ?root_live
    held := ?held }, .of_withLock fun t ht => hl ▸ .unlock v ht.symm⟩
  case clean =>
    intro l' v' hfree
    rw [withLock_lock] at hfree
    split at hfree
    · rename_i heq
      rw [heq]
      exact hclean
    · exact h.clean hfree
  case fresh =>
    intro a ha
    refine ⟨(h.fresh ha).1, ?_⟩
    rw [withLock_lock, if_neg]
    · exact (h.fresh ha).2
    · rintro rfl
      rw [(h.fresh ha).2] at hl
      cases hl
  case priv =>
    intro a t hpriv
    obtain ⟨hmem, htree, hdoomed, hlock⟩ := h.priv hpriv
    refine ⟨hmem, htree, hdoomed, ?_⟩
    rw [withLock_lock, if_neg]
    · exact hlock
    · rintro rfl
      rw [hlock] at hl
      cases hl
  case obsolete =>
    intro a
    rw [withLock_lock]
    split
    · rename_i heq
      have hobs := h.obsolete a
      rw [heq, hl] at hobs
      exact ⟨fun hcon => (nomatch hcon), fun hd => (nomatch hobs.mpr hd)⟩
    · exact h.obsolete a
  case root_live =>
    rw [withLock_lock]
    split
    · simp
    · exact h.root_live
  case held =>
    intro a d hd hin
    obtain ⟨hlock, hslot⟩ := h.held hd hin
    refine ⟨?_, hslot⟩
    rw [withLock_lock, if_neg (hguard hd hin)]
    exact hlock

/-- A linked node made obsolete by the holder of its write lock, who also holds the lock of the
    place that points to it. -/
theorem Inv.doom (h : Inv K w) {v : Nat} (hl : w.db.lock (.node a) = .locked v u)
    {d : Doom} (hd : d.thread = u) (hdlock : w.db.lock d.guard.lock = .locked d.guard.version u)
    (hda : d.guard.lock ≠ .node a) (hpa : p.addr = a) (hread : w.tree.graph.read slot = some p)
    (hslot : graphSite slot = d.guard.lock ∨ ∃ q, graphSite slot = .node q ∧ w.doomed q = some d)
    (hguard : ∀ {x d'}, w.doomed x = some d' → w.tree.heap x ≠ none → d'.guard.lock ≠ .node a) :
    Inv K (w.doom a d) ∧ Step u w (w.doom a d) := by
  have hnone : w.doomed a = none := by
    by_contra hcon
    rw [(h.obsolete a).mpr hcon] at hl
    cases hl
  have hkeep : ∀ {x d'}, w.doomed x = some d' → (w.doom a d).doomed x = some d' := by
    intro x d' hx
    rw [doom_doomed, if_neg]
    · exact hx
    · rintro rfl
      rw [hnone] at hx
      cases hx
  obtain ⟨body, hbody⟩ := h.tree_of_read hread
  have hbody := (Tree.deref_eq_some_iff.mp hbody).1
  rw [hpa] at hbody
  have hmem : w.db.mem.heap a ≠ none := by
    apply h.mem_of_tree
    rw [hbody]
    simp
  refine ⟨{
    tree := h.tree
    root := h.root
    body := ?body
    clean := ?clean
    fresh := ?fresh
    priv := ?priv
    owned := ?owned
    obsolete := ?obsolete
    root_live := ?root_live
    doomed_mem := ?doomed_mem
    held := ?held
    retired := ?retired
    nodup := h.nodup
    counted := h.counted
    not_removes := h.not_removes }, ?step⟩
  case body =>
    intro x b hb
    obtain ⟨b', hb', hwithin, hkids⟩ := h.body hb
    refine ⟨b', hb', hwithin, fun hx => hkids ?_⟩
    rw [doom_doomed] at hx
    split at hx
    · cases hx
    · exact hx
  case clean =>
    intro l' v' hfree
    rw [doom_lock] at hfree
    split at hfree
    · cases hfree
    · exact h.clean hfree
  case fresh =>
    intro x hx
    refine ⟨(h.fresh hx).1, ?_⟩
    rw [doom_lock, if_neg]
    · exact (h.fresh hx).2
    · rintro ⟨⟩
      rw [(h.fresh hx).2] at hl
      cases hl
  case priv =>
    intro x t hpriv
    obtain ⟨hxmem, htree, hdoomed, hlock⟩ := h.priv hpriv
    have hxa : x ≠ a := by
      rintro rfl
      rw [hlock] at hl
      cases hl
    refine ⟨hxmem, htree, ?_, ?_⟩
    · rw [doom_doomed, if_neg hxa]
      exact hdoomed
    · rw [doom_lock, if_neg (by rintro ⟨⟩; exact hxa rfl)]
      exact hlock
  case owned =>
    intro x hx
    rw [doom_doomed]
    split
    · simp
    · exact h.owned hx
  case obsolete =>
    intro x
    rw [doom_lock, doom_doomed]
    by_cases hxa : x = a
    · simp [hxa]
    · rw [if_neg hxa, if_neg (by rintro ⟨⟩; exact hxa rfl)]
      exact h.obsolete x
  case root_live =>
    rw [doom_lock, if_neg (by simp)]
    exact h.root_live
  case doomed_mem =>
    intro x hx
    rw [doom_doomed] at hx
    split at hx
    · rename_i heq
      rw [heq]
      exact hmem
    · exact h.doomed_mem hx
  case held =>
    intro x d' hx hin
    rw [doom_doomed] at hx
    split at hx
    · rename_i heq
      rw [Option.some_inj] at hx
      subst heq hx
      refine ⟨?_, slot, p, hpa, hread, ?_⟩
      · rw [doom_lock, if_neg hda, hd]
        exact hdlock
      · exact hslot.imp id fun ⟨q, hq, hqd⟩ => ⟨q, hq, hkeep hqd⟩
    · obtain ⟨hlock, slot', p', hp', hread', hcase⟩ := h.held hx hin
      refine ⟨?_, slot', p', hp', hread', hcase.imp id fun ⟨q, hq, hqd⟩ => ⟨q, hq, hkeep hqd⟩⟩
      rw [doom_lock, if_neg (hguard hx hin)]
      exact hlock
  case retired =>
    intro t q hq
    obtain ⟨g, hg⟩ := h.retired hq
    exact ⟨g, hkeep hg⟩
  case step =>
    refine ⟨fun {t} ht => ?_, .quiet rfl fun _ _ => Iff.rfl, .inl rfl⟩
    refine { Frame.refl t w with
      known := ?known, lock := ?lock, doomed := hkeep, doomedBy := ?doomedBy, gone := ?gone }
    case known =>
      intro q hq
      refine ⟨⟨hq.1, ?_⟩, rfl, id⟩
      rcases hq.2 with hcase | hcase
      · exact .inl hcase
      · obtain ⟨d', hd'⟩ := Option.ne_none_iff_exists'.mp hcase
        exact .inr (by rw [hkeep hd']; simp)
    case lock =>
      intro l'
      rw [doom_lock]
      split
      · rename_i heq
        rw [heq, hl]
        exact .obsolete v ht.symm
      · exact .same _
    case doomedBy =>
      rintro x ⟨g, hg⟩
      rw [doom_doomed] at hg
      split at hg
      · rw [Option.some_inj] at hg
        rw [hg] at hd
        exact absurd hd ht
      · exact ⟨⟨g, hg⟩, rfl⟩
    case gone =>
      intro x _ hx
      exact hx

/-! ## 3. Nodes changed outside the tree -/

/-- What an action that leaves the tree as it is may do at an address. -/
inductive MemStep (u : Nat) (w w' : World sizes) (a : Nat) : Prop where
  | same : w'.db.mem.heap a = w.db.mem.heap a → w'.priv a = w.priv a → MemStep u w w' a
  /-- A node of the thread's own, before or after. -/
  | own : w.priv a = some u ∨ w.db.next ≤ a →
      (w'.priv a = some u ∧ w'.db.mem.heap a ≠ none ∧ a < w'.db.next) ∨
        (w'.priv a = none ∧ w'.db.mem.heap a = none) → MemStep u w w' a
  /-- A linked node that the thread made obsolete loses children. -/
  | obsolete {n n' : INode NodePtr} : w.db.mem.heap a = some (.inode n) →
    w'.db.mem.heap a = some (.inode n') →
      w'.priv a = w.priv a → w.tree.heap a ≠ none → w.DoomedBy u a → n'.type = n.type →
      n'.keyPrefix = n.keyPrefix → (∀ b c, n'.child b = some c → n.child b = some c) →
      MemStep u w w' a
  /-- A linked node gets another prefix, by the thread that owns the place pointing to it, and the
      node too unless it removes a key. -/
  | keyPrefix {n n' : INode NodePtr} {slot : Radix.Slot NodePtr UInt8} {p : NodePtr} :
      w.db.mem.heap a = some (.inode n) →
      w'.db.mem.heap a = some (.inode n') → w'.priv a = w.priv a →
      n'.childrenCount = n.childrenCount → n'.layout = n.layout → p.addr = a →
      w.tree.graph.read slot = some p → w.Owns u (graphSite slot) →
      w.Owns u (.node a) ∨ w.Removes u → MemStep u w w' a

/-- An action that leaves the tree and the locks as they are. -/
structure Neutral (u : Nat) (w w' : World sizes) : Prop where
  tree : w'.tree = w.tree
  path : w'.path = w.path
  job : w'.job = w.job
  insertsOnly : w'.insertsOnly = w.insertsOnly
  root : w'.db.mem.root = w.db.mem.root
  lock : w'.db.lock = w.db.lock
  doomed : w'.doomed = w.doomed
  next : w.db.next ≤ w'.db.next
  mem : ∀ a, MemStep u w w' a
  retired : w'.db.retired = w.db.retired ∨
    ∃ p, w'.db.retired = (u, p) :: w.db.retired ∧ MayRetire w.db u p ∧ w.DoomedBy u p.addr
  counted : Accounted sizes w'.db.counted w'.db.next w'.db.stats

/-- A linked node stays in memory as one of its type. -/
theorem MemStep.of_linked (h : Inv K w) (hm : MemStep u w w' a)
    (ha : w.tree.heap a ≠ none ∨ w.doomed a ≠ none) :
    w'.priv a = w.priv a ∧ ∀ {body}, w.db.mem.heap a = some body →
      ∃ body', w'.db.mem.heap a = some body' ∧ body.Within body' ∧
        (¬ w.DoomedBy u a → body.SameKids body') := by
  cases hm with
  | same hmem hpriv =>
    refine ⟨hpriv, fun hbody => ⟨_, hmem.trans hbody, (Body.SameKids.refl _).within, fun _ => .refl _⟩⟩
  | own hbefore _ =>
    exfalso
    rcases hbefore with hpriv | hfresh
    · obtain ⟨-, htree, hdoomed, -⟩ := h.priv hpriv
      exact ha.elim (· htree) (· hdoomed)
    · have hmem := (h.fresh hfresh).1
      exact ha.elim (fun hin => h.mem_of_tree hin hmem) (fun hd => h.doomed_mem hd hmem)
  | obsolete hn hn' hpriv _ hdoomed htype _ hkids =>
    refine ⟨hpriv, fun hbody => ?_⟩
    rw [hn, Option.some_inj] at hbody
    subst hbody
    exact ⟨_, hn', ⟨htype, hkids⟩, fun hnot => absurd hdoomed hnot⟩
  | keyPrefix hn hn' hpriv hcount hlayout =>
    refine ⟨hpriv, fun hbody => ?_⟩
    rw [hn, Option.some_inj] at hbody
    subst hbody
    have hkids : (Body.inode _).SameKids (.inode _) := ⟨hcount, hlayout⟩
    exact ⟨_, hn', hkids.within, fun _ => hkids⟩

/-- The prefix of a linked node changes only for the owner of the place pointing to it, who has the
    node too or removes a key. -/
theorem MemStep.keyPrefix_eq (h : Inv K w) (hm : MemStep u w w' p.addr)
    (hread : w.tree.graph.read slot = some p)
    (hown : ¬ (w.Owns u (graphSite slot) ∧ (w.Owns u (.node p.addr) ∨ w.Removes u))) :
    SamePrefix w.db.mem w'.db.mem p.addr := by
  intro n hn
  obtain ⟨body, hbody⟩ := h.tree_of_read hread
  have hin : w.tree.heap p.addr ≠ none := by
    rw [(Tree.deref_eq_some_iff.mp hbody).1]
    simp
  cases hm with
  | same hmem _ => exact ⟨n, hmem.trans hn, rfl⟩
  | own hbefore _ =>
    rcases hbefore with hpriv | hfresh
    · exact absurd (h.priv hpriv).2.1 hin
    · rw [(h.fresh hfresh).1] at hn
      cases hn
  | obsolete hn0 hn' _ _ _ _ hpre _ =>
    rw [hn0] at hn
    cases hn
    exact ⟨_, hn', hpre⟩
  | @keyPrefix n0 n1 slot' p' _ _ _ _ _ hp' hread' hown' hnode' =>
    exfalso
    obtain ⟨body', hbody'⟩ := h.tree_of_read hread'
    rw [Tree.deref_addr_inj hbody' hbody hp'] at hread'
    rw [h.tree.graph.slot_unique hread hread'] at hown
    exact hown ⟨hown', hnode'⟩

theorem Neutral.inv (h : Inv K w) (hw : Neutral u w w') : Inv K w' := by
  obtain ⟨⟨mem', lock', next', stats', retired'⟩, tree', path', priv', doomed', job', only'⟩ := w'
  obtain ⟨htree, hpath, hjob, honly, hroot, hlock, hdoomed, hnext, hmem, hretired, hcounted⟩ := hw
  dsimp only at htree hpath hjob honly hroot hlock hdoomed hnext hretired hcounted
  subst htree hpath hjob honly hlock hdoomed
  have hlinked := fun a => (hmem a).of_linked h
  refine {
    tree := h.tree
    root := hroot.trans h.root
    body := ?body
    clean := ?clean
    fresh := ?fresh
    priv := ?priv
    owned := ?owned
    obsolete := h.obsolete
    root_live := h.root_live
    doomed_mem := ?doomed_mem
    held := h.held
    retired := ?retired
    nodup := ?nodup
    counted := hcounted
    not_removes := h.not_removes }
  case body =>
    intro a body hbody
    obtain ⟨body', hbody', hwithin, hkids⟩ := h.body hbody
    obtain ⟨-, hnew⟩ := hlinked a (.inl (by rw [hbody]; simp))
    obtain ⟨body'', hbody'', hwithin', hkids'⟩ := hnew hbody'
    refine ⟨body'', hbody'', ?_, fun hnone => ?_⟩
    · exact hwithin.trans hwithin'
    · exact (hkids hnone).trans (hkids' fun ⟨g, hg⟩ => nomatch hnone.symm.trans hg)
  case clean =>
    intro l v hfree slot p n n' hslot hread hn hn'
    have hown : ¬ w.Owns u (graphSite slot) := by
      rintro (⟨v', hv'⟩ | ⟨a, heq, g, hg⟩)
      · rw [hslot] at hv'
        exact nomatch hfree.symm.trans hv'
      · rw [hslot] at heq
        subst heq
        exact nomatch hfree.symm.trans ((h.obsolete a).mpr (by rw [hg]; simp))
    obtain ⟨m, hm, hwithin, -⟩ := h.body hn
    obtain ⟨n0, rfl, -⟩ := hwithin.inode
    obtain ⟨n1, hn1, hpre⟩ := (hmem p.addr).keyPrefix_eq h hread (fun hboth => hown hboth.1) hm
    cases hn'.symm.trans hn1
    exact hpre.trans (h.clean hfree hslot hread hn hm)
  case fresh =>
    intro a ha
    have ha0 : w.db.next ≤ a := Nat.le_trans hnext ha
    refine ⟨?_, (h.fresh ha0).2⟩
    cases hmem a with
    | same heq _ => exact heq.trans (h.fresh ha0).1
    | own _ hafter =>
      rcases hafter with ⟨-, -, hlt⟩ | ⟨-, hnone⟩
      · exact absurd hlt (Nat.not_lt_of_le ha)
      · exact hnone
    | obsolete hn => exact nomatch (h.fresh ha0).1.symm.trans hn
    | keyPrefix hn => exact nomatch (h.fresh ha0).1.symm.trans hn
  case priv =>
    intro a t hpriv
    cases hmem a with
    | same heq hsame =>
      have hold : w.priv a = some t := hsame.symm.trans hpriv
      obtain ⟨hne, hrest⟩ := h.priv hold
      exact ⟨fun hcon => hne (heq.symm.trans hcon), hrest⟩
    | own hbefore hafter =>
      rcases hafter with ⟨-, hne, -⟩ | ⟨hnone, -⟩
      · refine ⟨hne, ?_⟩
        rcases hbefore with hown | hfresh
        · exact (h.priv hown).2
        · have hnone := (h.fresh hfresh).1
          refine ⟨?_, ?_, (h.fresh hfresh).2⟩
          · by_contra hcon
            exact h.mem_of_tree hcon hnone
          · by_contra hcon
            exact h.doomed_mem hcon hnone
      · exact nomatch hnone.symm.trans hpriv
    | obsolete _ _ hsame hin =>
      exact absurd (h.priv (hsame.symm.trans hpriv)).2.1 hin
    | keyPrefix _ _ hsame _ _ hp hread =>
      obtain ⟨body, hbody⟩ := h.tree_of_read hread
      have htree := (h.priv (hsame.symm.trans hpriv)).2.1
      rw [← hp, (Tree.deref_eq_some_iff.mp hbody).1] at htree
      cases htree
  case owned =>
    intro a ha
    cases hmem a with
    | same heq hsame =>
      rcases h.owned (fun hcon => ha (heq.trans hcon)) with hc | hc | hc
      · exact .inl hc
      · exact .inr (.inl fun hcon => hc (hsame.symm.trans hcon))
      · exact .inr (.inr hc)
    | own _ hafter =>
      rcases hafter with ⟨hpriv, -, -⟩ | ⟨-, hnone⟩
      · exact .inr (.inl fun hcon => nomatch hcon.symm.trans hpriv)
      · exact absurd hnone ha
    | obsolete _ _ _ hin => exact .inl hin
    | keyPrefix _ _ _ _ _ hp hread =>
      obtain ⟨body, hbody⟩ := h.tree_of_read hread
      refine .inl ?_
      rw [← hp, (Tree.deref_eq_some_iff.mp hbody).1]
      simp
  case doomed_mem =>
    intro a ha
    obtain ⟨body, hbody⟩ := Option.ne_none_iff_exists'.mp (h.doomed_mem ha)
    obtain ⟨body', hbody', -⟩ := (hlinked a (.inr ha)).2 hbody
    exact fun hcon => nomatch hcon.symm.trans hbody'
  case retired =>
    intro t p hp
    rcases hretired with heq | ⟨q, heq, -, hq⟩
    · exact h.retired (heq ▸ hp)
    · dsimp only at hp
      rw [heq, List.mem_cons] at hp
      rcases hp with hp | hp
      · cases hp
        exact hq
      · exact h.retired hp
  case nodup =>
    rcases hretired with heq | ⟨q, heq, hmay, -⟩
    · dsimp only
      rw [heq]
      exact h.nodup
    · dsimp only
      rw [heq, List.map_cons, List.nodup_cons]
      refine ⟨fun hcon => ?_, h.nodup⟩
      obtain ⟨⟨t, p⟩, hp, hpq⟩ := List.mem_map.mp hcon
      exact hmay.first t p hp hpq

theorem Neutral.frame (h : Inv K w) (hw : Neutral u w w') (ht : t ≠ u) : Frame t w w' := by
  obtain ⟨⟨mem', lock', next', stats', retired'⟩, tree', path', priv', doomed', job', only'⟩ := w'
  obtain ⟨htree, hpath, hjob, honly, hroot, hlock, hdoomed, hnext, hmem, hretired, hcounted⟩ := hw
  dsimp only at htree hpath hjob honly hroot hlock hdoomed hnext hretired hcounted
  subst htree hpath hjob honly hlock hdoomed
  -- What a thread may know of before the step stays known, with the same key in a leaf.
  have hlinked := fun a => (hmem a).of_linked h
  -- A node belongs to one thread.
  have hnot : ∀ a, w.DoomedBy t a → ¬ w.DoomedBy u a := by
    rintro a ⟨g, hg⟩ ⟨g', hg'⟩
    rw [hg] at hg'
    cases hg'
    exact ht rfl
  refine {
    known := ?known
    lock := fun l => .same _
    site := fun _ => SameSite.refl _ _
    keyPrefix := ?keyPrefix
    ownPrefix := ?ownPrefix
    priv := ?priv
    doomed := id
    doomedBy := ?doomedBy
    gone := fun _ ha => ha
    retired := ?retired
    job := rfl
    insertsOnly := rfl }
  case known =>
    intro p hp
    obtain ⟨⟨body, hbody⟩, hcase⟩ := hp
    obtain ⟨hheap, htype⟩ := Tree.deref_eq_some_iff.mp hbody
    obtain ⟨body', hbody', hwithin, -⟩ := (hlinked p.addr hcase).2 hheap
    have hderef : mem'.deref p = some body' :=
      Tree.deref_eq_some_iff.mpr ⟨hbody', hwithin.type_eq.trans htype⟩
    refine ⟨⟨⟨body', hderef⟩, hcase⟩, rfl, fun hleaf => ?_⟩
    rw [hbody, Option.some_inj] at hleaf
    subst hleaf
    rw [hwithin.leaf] at hderef
    exact hderef
  case keyPrefix =>
    intro slot p hguarded hread
    refine ⟨SamePrefix.refl _ _, (hmem p.addr).keyPrefix_eq h hread ?_⟩
    rintro ⟨hown, -⟩
    exact hown.not_guarded h ht hguarded
  case ownPrefix =>
    intro honly slot p hguarded hread
    refine ⟨SamePrefix.refl _ _, (hmem p.addr).keyPrefix_eq h hread ?_⟩
    rintro ⟨-, hown | hremoves⟩
    · exact hown.not_guarded h ht hguarded
    · exact h.not_removes honly u hremoves
  case priv =>
    -- A node of this thread's own is no node of the other one, before or after.
    intro a
    cases hmem a with
    | same heq hsame =>
      exact ⟨⟨hsame.symm.trans, hsame.trans⟩, fun _ => heq⟩
    | own hbefore hafter =>
      have hold : w.priv a ≠ some t := by
        rcases hbefore with hown | hfresh
        · rw [hown]
          rintro ⟨⟩
          exact ht rfl
        · intro hcon
          exact (h.priv hcon).1 (h.fresh hfresh).1
      refine ⟨⟨fun hnew => ?_, fun hcon => absurd hcon hold⟩, fun hcon => absurd hcon hold⟩
      rcases hafter with ⟨hpriv, -, -⟩ | ⟨hnone, -⟩
      · cases hpriv.symm.trans hnew
        exact absurd rfl ht
      · exact nomatch hnone.symm.trans hnew
    | obsolete hn _ hsame hin =>
      exact ⟨⟨hsame.symm.trans, hsame.trans⟩, fun hcon => absurd (h.priv hcon).2.1 hin⟩
    | keyPrefix _ _ hsame _ _ hp hread =>
      obtain ⟨body, hbody⟩ := h.tree_of_read hread
      refine ⟨⟨hsame.symm.trans, hsame.trans⟩, fun hcon => ?_⟩
      have htree := (h.priv hcon).2.1
      rw [← hp, (Tree.deref_eq_some_iff.mp hbody).1] at htree
      cases htree
  case doomedBy =>
    intro a ha
    refine ⟨ha, ?_⟩
    -- A node that the thread is to retire is changed by nobody else.
    have hne : w.doomed a ≠ none := by
      obtain ⟨g, hg⟩ := ha
      exact fun hcon => nomatch hcon.symm.trans hg
    cases hmem a with
    | same heq _ => exact heq
    | own hbefore _ =>
      exfalso
      rcases hbefore with hown | hfresh
      · exact hne (h.priv hown).2.2.1
      · exact h.doomed_mem hne (h.fresh hfresh).1
    | obsolete _ _ _ _ hd => exact absurd hd (hnot a ha)
    | keyPrefix _ _ _ _ _ hp hread hown =>
      subst hp
      have howner := h.owns_of_doomed ha hread
      exact absurd (Owns.guarded howner) (hown.not_guarded h ht)
  case retired =>
    intro p
    -- Only the thread's own retirements count.
    rcases hretired with heq | ⟨q, heq, -, -⟩
    · dsimp only
      rw [heq]
    · dsimp only
      rw [heq, List.mem_cons, Prod.mk.injEq]
      constructor
      · rintro (⟨hcon, -⟩ | hp)
        · exact absurd hcon ht
        · exact hp
      · exact .inr

theorem Neutral.step (h : Inv K w) (hw : Neutral u w w') : Step u w w' where
  frame := hw.frame h
  job := by
    refine .quiet (by rw [hw.job]) fun k v => ?_
    rw [hw.tree]
  retired := hw.retired.imp id fun ⟨p, hp, hmay, _⟩ => ⟨p, hp, hmay⟩

/-! ## 4. Changes of the tree -/

/-- What an action that changes the tree below the lock `l` may do at an address. -/
inductive CommitStep (u : Nat) (l : Site) (w w' : World sizes) (a : Nat) : Prop where
  | same : w'.tree.heap a = w.tree.heap a → w'.db.mem.heap a = w.db.mem.heap a →
      w'.priv a = w.priv a → CommitStep u l w w' a
  /-- A node of the thread's own is linked. -/
  | added {body : Body} : w.priv a = some u → w'.priv a = none → w'.tree.heap a = some body →
      w'.db.mem.heap a = some body → w.db.mem.heap a = some body → CommitStep u l w w' a
  /-- A node that the thread made obsolete is unlinked. -/
  | removed : w.DoomedBy u a → w'.tree.heap a = none → w'.db.mem.heap a = w.db.mem.heap a →
      w'.priv a = w.priv a → CommitStep u l w w' a
  /-- A prefix changed before is now the right one. -/
  | adjusted {n n' m : INode NodePtr} {slot : Radix.Slot NodePtr UInt8} {p : NodePtr} :
      w.tree.heap a = some (.inode n) →
      w'.tree.heap a = some (.inode n') → n'.childrenCount = n.childrenCount →
      n'.layout = n.layout → w.db.mem.heap a = some (.inode m) →
      w'.db.mem.heap a = w.db.mem.heap a → m.keyPrefix = n'.keyPrefix → w'.priv a = w.priv a →
      p.addr = a → w.tree.graph.read slot = some p → w.Owns u (graphSite slot) →
      w.Owns u (.node a) ∨ w.Removes u → CommitStep u l w w' a
  /-- The node that the lock protects has other children. -/
  | site {n n' m m' : INode NodePtr} : l = .node a → w.tree.heap a = some (.inode n) →
      w'.tree.heap a = some (.inode n') → n'.keyPrefix = n.keyPrefix → n'.type = n.type →
      w.db.mem.heap a = some (.inode m) → w'.db.mem.heap a = some (.inode m') →
      m'.keyPrefix = m.keyPrefix → m'.childrenCount = n'.childrenCount → m'.layout = n'.layout →
      w'.priv a = w.priv a → CommitStep u l w w' a

/-- An action that changes the tree below the lock `l`. -/
structure Commit (K : Set (List UInt8)) (u : Nat) (l : Site) (w w' : World sizes) : Prop where
  tree : w'.tree.Inv K w'.path
  root : w'.db.mem.root = w'.tree.root
  lock : w'.db.lock = w.db.lock
  next : w'.db.next = w.db.next
  stats : w'.db.stats = w.db.stats
  retired : w'.db.retired = w.db.retired
  doomed : w'.doomed = w.doomed
  held : ∃ v, w.db.lock l = .locked v u
  other_root : l ≠ .root → w'.tree.root = w.tree.root
  path : ∀ {p}, w.Known p → w'.path p = w.path p
  node : ∀ a, CommitStep u l w w' a
  out : ∀ {a}, w.DoomedBy u a → w'.tree.heap a = none
  clean : ∀ {a}, w.priv a = some u → w'.tree.heap a ≠ none → w'.Clean (.node a)
  job : JobStep u w w'
  request : ∀ t, (w'.job t).request = (w.job t).request
  other_job : ∀ t, t ≠ u → w'.job t = w.job t
  insertsOnly : w'.insertsOnly = w.insertsOnly

end World

namespace Tree

variable {t t' : Tree} {slot : Radix.Slot NodePtr UInt8} {p q : NodePtr} {b : UInt8}

theorem read_child_iff : t.graph.read (.child q b) = some p ↔
    ∃ n, t.deref q = some (.inode n) ∧ n.child b = some p := by
  constructor
  · intro h
    obtain ⟨pre, c, hnode, hc⟩ := Radix.read_child_iff.mp h
    obtain ⟨body, hbody, hview⟩ := Option.map_eq_some_iff.mp hnode
    cases body with
    | leaf k v => cases hview
    | inode n =>
      cases hview
      exact ⟨n, hbody, hc⟩
  · rintro ⟨n, hn, hc⟩
    rw [graph_read_child hn]
    exact hc

/-- A slot whose site is the same reads the same. -/
theorem read_of_sameSite (h : World.SameSite t t' (graphSite slot))
    (hread : t.graph.read slot = some p) : t'.graph.read slot = some p := by
  cases slot with
  | root =>
    change t'.root = some p
    rw [show t'.root = t.root from h]
    exact hread
  | child q b =>
    obtain ⟨n, hn, hb⟩ := read_child_iff.mp hread
    obtain ⟨hheap, htype⟩ := deref_eq_some_iff.mp hn
    obtain ⟨body', hbody', hkids⟩ := h hheap
    obtain ⟨n', rfl, hcount, hlayout⟩ := hkids.inode
    refine read_child_iff.mpr ⟨n', deref_eq_some_iff.mpr ⟨hbody', hkids.type_eq.trans htype⟩, ?_⟩
    rw [INode.child_of_kids hcount hlayout]
    exact hb

/-- If its node was linked before, it reads no more either. -/
theorem read_iff_of_sameSite (h : World.SameSite t t' (graphSite slot))
    (hlinked : ∀ a, graphSite slot = .node a → t.heap a ≠ none) :
    t'.graph.read slot = some p ↔ t.graph.read slot = some p := by
  refine ⟨fun hread => ?_, read_of_sameSite h⟩
  cases slot with
  | root =>
    have hroot : t'.root = t.root := h
    change t.root = some p
    rw [← hroot]
    exact hread
  | child q b =>
    obtain ⟨n', hn', hb⟩ := read_child_iff.mp hread
    obtain ⟨hheap', htype'⟩ := deref_eq_some_iff.mp hn'
    obtain ⟨body, hbody⟩ := Option.ne_none_iff_exists'.mp (hlinked q.addr rfl)
    obtain ⟨body', hbody', hkids⟩ := h hbody
    cases hheap'.symm.trans hbody'
    obtain ⟨n, rfl, hcount, hlayout⟩ := hkids.symm.inode
    refine read_child_iff.mpr ⟨n, deref_eq_some_iff.mpr ⟨hbody, ?_⟩, ?_⟩
    · exact (INode.type_of_layout hlayout).trans htype'
    · rw [INode.child_of_kids hcount hlayout]
      exact hb

end Tree

namespace World

variable {K : Set (List UInt8)} {w w' : World sizes} {t u a : Nat} {l l' : Site} {p q : NodePtr}
  {slot : Radix.Slot NodePtr UInt8} {body : Body} {n m : INode NodePtr}

/-- A site that the thread does not own stays the same. -/
theorem Commit.sameSite (h : Inv K w) (hw : Commit K u l w w') (hown : ¬ w.Owns u l') :
    SameSite w.tree w'.tree l' := by
  have hne : l ≠ l' := by
    rintro rfl
    exact hown (.inl hw.held)
  cases l' with
  | root => exact hw.other_root hne
  | node a =>
    intro body hbody
    cases hw.node a with
    | same htree _ _ => exact ⟨body, htree.trans hbody, .refl _⟩
    | added hpriv => exact nomatch (h.priv hpriv).2.1.symm.trans hbody
    | removed hd => exact absurd (.inr ⟨a, rfl, hd⟩) hown
    | adjusted hn hn' hcount hlayout =>
      rw [hn, Option.some_inj] at hbody
      subst hbody
      exact ⟨_, hn', hcount, hlayout⟩
    | site heq => exact absurd heq hne

/-- A node of the tree before that is still linked comes from the same slot, if the thread does not
    own that slot. -/
theorem Commit.read_of_read (h : Inv K w) (hw : Commit K u l w w') (hold : ∀ a, graphSite slot = .node a →
      w.tree.heap a ≠ none) (hown : ¬ w.Owns u (graphSite slot))
    (hread : w'.tree.graph.read slot = some p) : w.tree.graph.read slot = some p := by
  have hne : l ≠ graphSite slot := by
    intro heq
    rw [← heq] at hown
    exact hown (.inl hw.held)
  cases slot with
  | root =>
    have hroot : w'.tree.root = w.tree.root := hw.other_root hne
    change w.tree.root = some p
    rw [← hroot]
    exact hread
  | child q b =>
    obtain ⟨n', hn', hb⟩ := Tree.read_child_iff.mp hread
    obtain ⟨hheap', htype'⟩ := Tree.deref_eq_some_iff.mp hn'
    refine Tree.read_child_iff.mpr ?_
    cases hw.node q.addr with
    | same htree _ _ => exact ⟨n', Tree.deref_eq_some_iff.mpr ⟨htree.symm.trans hheap', htype'⟩, hb⟩
    | added hpriv => exact absurd (h.priv hpriv).2.1 (hold _ rfl)
    | removed hd => exact absurd (.inr ⟨_, rfl, hd⟩) hown
    | @adjusted n _ _ _ _ hn hn0 hcount hlayout =>
      rw [hn0, Option.some_inj] at hheap'
      cases hheap'
      refine ⟨n, Tree.deref_eq_some_iff.mpr ⟨hn, ?_⟩, ?_⟩
      · exact (INode.type_of_layout hlayout).symm.trans htype'
      · rw [← INode.child_of_kids hcount hlayout]
        exact hb
    | site heq => exact absurd heq hne

theorem Owns.ne_free (h : Inv K w) (hu : w.Owns u l) (v : Nat) : w.db.lock l ≠ .free v := by
  rintro hfree
  rcases hu with ⟨v', hv'⟩ | ⟨a, rfl, g, hg⟩
  · exact nomatch hfree.symm.trans hv'
  · exact nomatch hfree.symm.trans ((h.obsolete a).mpr (by rw [hg]; simp))

/-- What a changed tree keeps in memory at a linked address. -/
theorem CommitStep.mem_eq (h : Inv K w) (hc : CommitStep u l w w' a)
    (hbody : w'.tree.heap a = some body) :
    ∃ body', w'.db.mem.heap a = some body' ∧ body.Within body' ∧
      (w.doomed a = none → body.SameKids body') := by
  cases hc with
  | same htree hmem _ =>
    rw [hmem]
    exact h.body (htree.symm.trans hbody)
  | added _ _ htree hmem _ =>
    rw [htree, Option.some_inj] at hbody
    subst hbody
    exact ⟨_, hmem, (Body.SameKids.refl _).within, fun _ => .refl _⟩
  | removed _ htree => exact nomatch htree.symm.trans hbody
  | adjusted hn hn' hcount hlayout hm hmem =>
    rw [hn', Option.some_inj] at hbody
    subst hbody
    obtain ⟨m', hm', hwithin, hkids⟩ := h.body hn
    rw [hmem]
    have hsame : (Body.inode _).SameKids (.inode _) := ⟨hcount, hlayout⟩
    exact ⟨m', hm', hsame.within_left hwithin, fun hd => hsame.symm.trans (hkids hd)⟩
  | site _ hn hn' _ _ _ hm' _ hcount hlayout =>
    rw [hn', Option.some_inj] at hbody
    subst hbody
    have hsame : (Body.inode _).SameKids (.inode _) := ⟨hcount, hlayout⟩
    exact ⟨_, hm', hsame.within, fun _ => hsame⟩

/-- A node that is linked before and afterwards has the right prefix if it had it. -/
theorem CommitStep.clean (h : Inv K w) (hc : CommitStep u l w w' p.addr) {n n' : INode NodePtr}
    (hread : w.tree.graph.read slot = some p)
    (hright : ∀ {n n'}, w.tree.heap p.addr = some (.inode n) →
      w.db.mem.heap p.addr = some (.inode n') → n'.keyPrefix = n.keyPrefix)
    (hn : w'.tree.heap p.addr = some (.inode n)) (hn' : w'.db.mem.heap p.addr = some (.inode n')) :
    n'.keyPrefix = n.keyPrefix := by
  cases hc with
  | same htree hmem _ => exact hright (htree.symm.trans hn) (hmem.symm.trans hn')
  | added hpriv =>
    obtain ⟨body, hbody⟩ := h.tree_of_read hread
    have hnone := (h.priv hpriv).2.1
    rw [(Tree.deref_eq_some_iff.mp hbody).1] at hnone
    cases hnone
  | removed _ htree => exact nomatch htree.symm.trans hn
  | adjusted _ hn0 _ _ hm hmem hpre =>
    rw [hn0, Option.some_inj] at hn
    cases hn
    rw [hmem, hm, Option.some_inj] at hn'
    cases hn'
    exact hpre
  | site _ hn0 hn1 hpre _ hm hm' hpre' =>
    rw [hn1, Option.some_inj] at hn
    cases hn
    rw [hm', Option.some_inj] at hn'
    cases hn'
    rw [hpre', hpre]
    exact hright hn0 hm

theorem Commit.inv (h : Inv K w) (hw : Commit K u l w w') : Inv K w' := by
  refine {
    tree := hw.tree
    root := hw.root
    body := ?body
    clean := ?clean
    fresh := ?fresh
    priv := ?priv
    owned := ?owned
    obsolete := ?obsolete
    root_live := ?root_live
    doomed_mem := ?doomed_mem
    held := ?held
    retired := ?retired
    nodup := ?nodup
    counted := ?counted
    not_removes := ?not_removes }
  case body =>
    intro a body hbody
    rw [hw.doomed]
    exact (hw.node a).mem_eq h hbody
  case clean =>
    intro l' v hfree
    rw [hw.lock] at hfree
    rcases Classical.em (∃ a, l' = .node a ∧ w.priv a = some u ∧ w'.tree.heap a ≠ none) with
      hadd | hadd
    · obtain ⟨a, rfl, hpriv, hin⟩ := hadd
      exact hw.clean hpriv hin
    · intro slot p n n' hslot hread hn hn'
      subst hslot
      have hown : ¬ w.Owns u (graphSite slot) := fun hu => hu.ne_free h v hfree
      have hold : ∀ a, graphSite slot = .node a → w.tree.heap a ≠ none := by
        intro a ha hnone
        cases slot with
        | root => cases ha
        | child q b =>
          cases ha
          obtain ⟨m, hm, -⟩ := Tree.read_child_iff.mp hread
          have hm := (Tree.deref_eq_some_iff.mp hm).1
          cases hw.node q.addr with
          | same htree => exact nomatch hnone.symm.trans (htree.symm.trans hm)
          | added hpriv _ hin => exact hadd ⟨_, rfl, hpriv, by rw [hin]; simp⟩
          | removed _ htree => exact nomatch htree.symm.trans hm
          | adjusted hn0 => exact nomatch hnone.symm.trans hn0
          | site _ hn0 => exact nomatch hnone.symm.trans hn0
      have hread' := hw.read_of_read h hold hown hread
      exact (hw.node p.addr).clean h hread' (h.clean hfree rfl hread') hn hn'
  case fresh =>
    intro a ha
    rw [hw.next] at ha
    rw [hw.lock]
    refine ⟨?_, (h.fresh ha).2⟩
    have hnone := (h.fresh ha).1
    cases hw.node a with
    | same _ hmem => exact hmem.trans hnone
    | added _ _ _ _ hmem => exact nomatch hnone.symm.trans hmem
    | removed _ _ hmem => exact hmem.trans hnone
    | adjusted _ _ _ _ hm => exact nomatch hnone.symm.trans hm
    | site _ _ _ _ _ hm => exact nomatch hnone.symm.trans hm
  case priv =>
    intro a t hpriv
    rw [hw.doomed, hw.lock]
    cases hw.node a with
    | same htree hmem hsame =>
      rw [hmem, htree]
      exact h.priv (hsame.symm.trans hpriv)
    | added _ hnone => exact nomatch hnone.symm.trans hpriv
    | removed hd _ _ hsame =>
      obtain ⟨g, hg⟩ := hd
      exact nomatch (h.priv (hsame.symm.trans hpriv)).2.2.1.symm.trans hg
    | adjusted hn _ _ _ _ _ _ hsame =>
      exact nomatch (h.priv (hsame.symm.trans hpriv)).2.1.symm.trans hn
    | site _ hn _ _ _ _ _ _ _ _ hsame =>
      exact nomatch (h.priv (hsame.symm.trans hpriv)).2.1.symm.trans hn
  case owned =>
    intro a ha
    rw [hw.doomed]
    cases hw.node a with
    | same htree hmem hsame =>
      rw [htree, hsame]
      exact h.owned fun hcon => ha (hmem.trans hcon)
    | added _ _ htree => exact .inl (by rw [htree]; simp)
    | removed hd =>
      obtain ⟨g, hg⟩ := hd
      exact .inr (.inr (by rw [hg]; simp))
    | adjusted _ hn' => exact .inl (by rw [hn']; simp)
    | site _ _ hn' => exact .inl (by rw [hn']; simp)
  case obsolete =>
    intro a
    rw [hw.lock, hw.doomed]
    exact h.obsolete a
  case root_live =>
    rw [hw.lock]
    exact h.root_live
  case doomed_mem =>
    intro a ha
    rw [hw.doomed] at ha
    have hmem := h.doomed_mem ha
    cases hw.node a with
    | same _ heq => rwa [heq]
    | added _ _ _ heq => rw [heq]; simp
    | removed _ _ heq => rwa [heq]
    | adjusted _ _ _ _ _ heq => rwa [heq]
    | site _ _ _ _ _ _ heq => rw [heq]; simp
  case held =>
    -- A node that is obsolete and still linked belongs to another thread, whose slot is the same.
    intro a d hd hin
    rw [hw.doomed] at hd
    have hin0 : w.tree.heap a ≠ none := by
      cases hw.node a with
      | same htree => rwa [← htree]
      | added hpriv => exact nomatch (h.priv hpriv).2.2.1.symm.trans hd
      | removed _ htree => exact absurd htree hin
      | adjusted hn => rw [hn]; simp
      | site _ hn => rw [hn]; simp
    have hdu : d.thread ≠ u := by
      rintro rfl
      exact hin (hw.out ⟨d.guard, hd⟩)
    obtain ⟨hlock, slot, p, hp, hread, hcase⟩ := h.held hd hin0
    have hguarded := (h.owns_of_doomed (p := p) ⟨d.guard, by rw [hp]; exact hd⟩ hread).guarded
    have hown : ¬ w.Owns u (graphSite slot) := fun hu => hu.not_guarded h hdu hguarded
    refine ⟨by rw [hw.lock]; exact hlock, slot, p, hp, ?_, by rw [hw.doomed]; exact hcase⟩
    exact Tree.read_of_sameSite (hw.sameSite h hown) hread
  case retired =>
    intro t p hp
    rw [hw.retired] at hp
    obtain ⟨g, hg⟩ := h.retired hp
    exact ⟨g, by rw [hw.doomed]; exact hg⟩
  case nodup =>
    rw [hw.retired]
    exact h.nodup
  case counted =>
    rw [hw.next, hw.stats]
    refine h.counted.congr fun a => ?_
    simp only [OlcDb.counted, hw.retired]
    split
    · rfl
    · cases hw.node a with
      | same _ hmem => rw [hmem]
      | added _ _ _ hmem hmem' => rw [hmem, hmem']
      | removed _ _ hmem => rw [hmem]
      | adjusted _ _ _ _ _ hmem => rw [hmem]
      | site _ hn hn' _ htype hm hm' _ _ hlayout =>
        obtain ⟨m', hm0, hwithin, -⟩ := h.body hn
        rw [hm, Option.some_inj] at hm0
        subst hm0
        have htype' := (INode.type_of_layout hlayout).trans (htype.trans hwithin.type_eq.symm)
        rw [hm, hm', Option.map_some, Option.map_some, Body.type, Body.type, Sizes.of, Sizes.of,
          htype', Body.type]
  case not_removes =>
    rw [hw.insertsOnly]
    rintro honly t ⟨k, hk⟩
    exact h.not_removes honly t ⟨k, (hw.request t).symm.trans hk⟩

/-- The prefix of a node changes only for the owner of the place pointing to it, who has the node too
    or removes a key. -/
theorem CommitStep.keyPrefix_eq (h : Inv K w) (hc : CommitStep u l w w' p.addr)
    (hread : w.tree.graph.read slot = some p)
    (hown : ¬ (w.Owns u (graphSite slot) ∧ (w.Owns u (.node p.addr) ∨ w.Removes u))) :
    SamePrefix w.tree w'.tree p.addr ∧ SamePrefix w.db.mem w'.db.mem p.addr := by
  obtain ⟨body, hbody⟩ := h.tree_of_read hread
  have hheap := (Tree.deref_eq_some_iff.mp hbody).1
  cases hc with
  | same htree hmem =>
    exact ⟨fun hn => ⟨_, htree.trans hn, rfl⟩, fun hn => ⟨_, hmem.trans hn, rfl⟩⟩
  | added hpriv => exact nomatch (h.priv hpriv).2.1.symm.trans hheap
  | removed hd => exact absurd ⟨h.owns_of_doomed hd hread, .inl (.inr ⟨_, rfl, hd⟩)⟩ hown
  | adjusted _ _ _ _ _ _ _ _ hp hread' hown' hnode' =>
    obtain ⟨body', hbody'⟩ := h.tree_of_read hread'
    rw [Tree.deref_addr_inj hbody' hbody hp] at hread'
    rw [h.tree.graph.slot_unique hread hread'] at hown
    exact absurd ⟨hown', hnode'⟩ hown
  | site _ hn hn' hpre _ hm hm' hpre' =>
    refine ⟨fun hn0 => ⟨_, hn', ?_⟩, fun hm0 => ⟨_, hm', ?_⟩⟩
    · rw [hn, Option.some_inj] at hn0
      cases hn0
      exact hpre
    · rw [hm, Option.some_inj] at hm0
      cases hm0
      exact hpre'

theorem Commit.frame (h : Inv K w) (hw : Commit K u l w w') (ht : t ≠ u) : Frame t w w' where
  known {p} hp := by
    obtain ⟨⟨body, hbody⟩, hcase⟩ := hp
    obtain ⟨hheap, htype⟩ := Tree.deref_eq_some_iff.mp hbody
    have hcase' : w'.tree.heap p.addr ≠ none ∨ w'.doomed p.addr ≠ none := by
      rw [hw.doomed]
      cases hw.node p.addr with
      | same htree => rwa [htree]
      | added _ _ htree => exact .inl (by rw [htree]; simp)
      | removed hd =>
        obtain ⟨g, hg⟩ := hd
        exact .inr (by rw [hg]; simp)
      | adjusted _ hn' => exact .inl (by rw [hn']; simp)
      | site _ _ hn' => exact .inl (by rw [hn']; simp)
    have hkeep : ∀ {body'}, w'.db.mem.heap p.addr = some body' → body'.type = body.type →
        w'.Known p := fun hheap' htype' =>
      ⟨⟨_, Tree.deref_eq_some_iff.mpr ⟨hheap', htype'.trans htype⟩⟩, hcase'⟩
    have hsame : w'.db.mem.heap p.addr = w.db.mem.heap p.addr →
        w'.Known p ∧ w'.path p = w.path p ∧
          ∀ {k v}, w.db.mem.deref p = some (.leaf k v) → w'.db.mem.deref p = some (.leaf k v) := by
      intro hmem
      refine ⟨hkeep (hmem.trans hheap) rfl, hw.path ⟨⟨body, hbody⟩, hcase⟩, fun hleaf => ?_⟩
      obtain ⟨hl, hlt⟩ := Tree.deref_eq_some_iff.mp hleaf
      exact Tree.deref_eq_some_iff.mpr ⟨hmem.trans hl, hlt⟩
    cases hw.node p.addr with
    | same _ hmem => exact hsame hmem
    | added _ _ _ hmem hmem' => exact hsame (hmem.trans hmem'.symm)
    | removed _ _ hmem => exact hsame hmem
    | adjusted _ _ _ _ _ hmem => exact hsame hmem
    | site _ hn _ _ htype' hm hm' _ _ hlayout =>
      obtain ⟨m, hm0, hwithin, -⟩ := h.body hn
      rw [hm, Option.some_inj] at hm0
      subst hm0
      rw [hm, Option.some_inj] at hheap
      subst hheap
      refine ⟨hkeep hm' ?_, hw.path ⟨⟨_, hbody⟩, hcase⟩, fun hleaf => ?_⟩
      · exact (INode.type_of_layout hlayout).trans (htype'.trans hwithin.type_eq.symm)
      · rw [hbody] at hleaf
        cases hleaf
  lock l' := by
    rw [hw.lock]
    exact .same _
  site hguarded := hw.sameSite h fun hu => hu.not_guarded h ht hguarded
  keyPrefix hguarded hread :=
    (hw.node _).keyPrefix_eq h hread fun hboth => hboth.1.not_guarded h ht hguarded
  ownPrefix honly {slot p} hguarded hread :=
    (hw.node _).keyPrefix_eq h hread fun hboth => hboth.2.elim
      (fun hu => hu.not_guarded h ht hguarded) (h.not_removes honly u)
  priv a := by
    cases hw.node a with
    | same _ hmem hsame => exact ⟨⟨hsame.symm.trans, hsame.trans⟩, fun _ => hmem⟩
    | added hu hnone _ hmem hmem' =>
      refine ⟨⟨fun hcon => (nomatch hnone.symm.trans hcon), fun hcon => ?_⟩,
        fun _ => hmem.trans hmem'.symm⟩
      cases hu.symm.trans hcon
      exact absurd rfl ht
    | removed _ _ hmem hsame => exact ⟨⟨hsame.symm.trans, hsame.trans⟩, fun _ => hmem⟩
    | adjusted _ _ _ _ _ hmem _ hsame =>
      exact ⟨⟨hsame.symm.trans, hsame.trans⟩, fun _ => hmem⟩
    | site _ hn _ _ _ _ _ _ _ _ hsame =>
      refine ⟨⟨hsame.symm.trans, hsame.trans⟩, fun hcon => ?_⟩
      exact nomatch (h.priv hcon).2.1.symm.trans hn
  doomed hd := by
    rw [hw.doomed]
    exact hd
  doomedBy {a} hd := by
    rw [DoomedBy, hw.doomed] at hd
    refine ⟨hd, ?_⟩
    cases hw.node a with
    | same _ hmem => exact hmem
    | added _ _ _ hmem hmem' => exact hmem.trans hmem'.symm
    | removed _ _ hmem => exact hmem
    | adjusted _ _ _ _ _ hmem => exact hmem
    | site heq =>
      subst heq
      obtain ⟨v, hv⟩ := hw.held
      obtain ⟨g, hg⟩ := hd
      exact nomatch hv.symm.trans ((h.obsolete a).mpr (by rw [hg]; simp))
  gone {a} hd hnone := by
    cases hw.node a with
    | same htree => exact htree.trans hnone
    | added hpriv => exact absurd (h.priv hpriv).2.2.1 hd
    | removed _ htree => exact htree
    | adjusted hn => exact nomatch hnone.symm.trans hn
    | site _ hn => exact nomatch hnone.symm.trans hn
  retired p := by rw [hw.retired]
  job := hw.other_job t ht
  insertsOnly := hw.insertsOnly

theorem Commit.step (h : Inv K w) (hw : Commit K u l w w') : Step u w w' where
  frame := hw.frame h
  job := hw.job
  retired := .inl hw.retired

end World

end Unodb
