import Unodb.Olc.Rules
import Unodb.Olc.Remove

/-!
# Rules for a thread with write locks

What a thread that has upgraded the sections of a place and of the node there can rely on, and the
rules for the actions with which it prepares a change of the tree and concludes it.
-/

namespace Unodb

namespace World

variable {K : Set (List UInt8)} {w w' : World sizes} {t a : Nat} {l : Site} {p node : NodePtr}
  {sl : Slot} {slot : Radix.Slot NodePtr UInt8} {body body' : Body} {kit : Kit} {cs : CriticalSection}
  {n n' : INode NodePtr} {F G : World sizes → Prop}

/-! ## 1. What a thread holds on to -/

theorem Owns.frame (h : w.Owns t l) (hframe : Frame t w w') : w'.Owns t l := by
  rcases h with ⟨v, hv⟩ | ⟨a, rfl, g, hg⟩
  · exact .inl ⟨v, (hframe.locked_iff ⟨l, v⟩).mpr hv⟩
  · exact .inr ⟨a, rfl, g, hframe.doomed hg⟩

/-- The thread owns a place and the node there, which the tree has as `body` and the memory as
    `body'`. -/
structure Grip (w : World sizes) (t : Nat) (sl : Slot) (slot : Radix.Slot NodePtr UInt8)
    (node : NodePtr) (body body' : Body) : Prop where
  place : w.Owns t (graphSite slot)
  own : w.Owns t (.node node.addr)
  slotAt : w.tree.SlotAt sl slot
  read : w.tree.graph.read slot = some node
  tree : w.tree.deref node = some body
  mem : w.db.mem.deref node = some body'

/-- The thread owns what the lock protects, and the nodes below the places there, but for those in
    `X`, have the right prefixes. -/
structure Tidy (w : World sizes) (t : Nat) (l : Site) (X : Radix.Slot NodePtr UInt8 → Prop) : Prop where
  own : w.Owns t l
  linked : ∀ a, l = .node a → w.tree.heap a ≠ none
  right : ∀ {slot p n n'}, graphSite slot = l → ¬ X slot → w.tree.graph.read slot = some p →
    w.tree.heap p.addr = some (.inode n) → w.db.mem.heap p.addr = some (.inode n') →
    n'.keyPrefix = n.keyPrefix

/-- The thread owns a place, and the inner node there has one prefix in the tree and another one in
    memory. -/
structure Prefixed (w : World sizes) (t : Nat) (slot : Radix.Slot NodePtr UInt8) (p : NodePtr)
    (keyPrefix keyPrefix' : KeyPrefix) : Prop where
  place : w.Owns t (graphSite slot)
  read : w.tree.graph.read slot = some p
  tree : ∃ n, w.tree.deref p = some (.inode n) ∧ n.keyPrefix = keyPrefix
  mem : ∃ n, w.db.mem.deref p = some (.inode n) ∧ n.keyPrefix = keyPrefix'

/-- An action of the thread itself that leaves the tree as it is, and in memory the nodes that other
    threads may know. -/
structure Aside (t : Nat) (w w' : World sizes) : Prop extends Keeps t w w' where
  tree : w'.tree = w.tree
  owns : ∀ {l}, w.Owns t l → w'.Owns t l
  doomed : ∀ {a d}, w.doomed a = some d → w'.doomed a = some d
  mem : ∀ {p}, w.Known p → w'.db.mem.heap p.addr = w.db.mem.heap p.addr

/-- A fact that holds on whatever the others do and until the thread itself changes the tree. -/
structure Firm (K : Set (List UInt8)) (t : Nat) (F : World sizes → Prop) : Prop where
  steady : Steady K t F
  aside : ∀ ⦃w w'⦄, Inv K w → Inv K w' → Aside t w w' → F w → F w'

theorem Lasting.firm (h : Lasting K t F) : Firm K t F :=
  ⟨h.steady, fun _ _ hinv hinv' haside => h hinv hinv' haside.toKeeps⟩

theorem Firm.and (hF : Firm K t F) (hG : Firm K t G) : Firm K t fun w : World sizes => F w ∧ G w :=
  ⟨hF.steady.and hG.steady, fun _ _ hinv hinv' haside h =>
    ⟨hF.aside hinv hinv' haside h.1, hG.aside hinv hinv' haside h.2⟩⟩

theorem firm_doomed (a : Nat) (d : Doom) : Firm K t fun w : World sizes => w.doomed a = some d :=
  ⟨fun _ _ _ _ hframe hd => hframe.doomed hd, fun _ _ _ _ haside hd => haside.doomed hd⟩

/-- What the others leave of a node that the thread owns together with its place. -/
theorem Grip.frame (h : w.Grip t sl slot node body body') (hinv : Inv K w) (hinv' : Inv K w')
    (hframe : Frame t w w') : w'.Grip t sl slot node body body' := by
  have hplace := h.place.frame hframe
  have hnode := h.own.frame hframe
  have hsite := hframe.site h.place.guarded
  obtain ⟨hheap, htype⟩ := Tree.deref_eq_some_iff.mp h.tree
  obtain ⟨hmheap, hmtype⟩ := Tree.deref_eq_some_iff.mp h.mem
  obtain ⟨body1, hbody1, hkids⟩ := hframe.site h.own.guarded hheap
  obtain ⟨hpre, hmpre⟩ := hframe.keyPrefix h.place.guarded h.read
  -- The other threads change neither the children nor the prefix of the node.
  have htree : w'.tree.heap node.addr = some body := by
    cases body with
    | leaf k v => rw [hbody1, hkids.leaf]
    | inode n =>
      obtain ⟨n', rfl, hcount, hlayout⟩ := hkids.inode
      obtain ⟨n1, hn1, hpre⟩ := hpre hheap
      cases hbody1.symm.trans hn1
      rw [hbody1, INode.eq_of_kids hcount hlayout, hpre]
  have hmem : w'.db.mem.heap node.addr = some body' := by
    rcases h.own with ⟨v, hv⟩ | ⟨a, ha, g, hg⟩
    · -- The lock word tells that the node is not obsolete, before and afterwards.
      have hsame : ∀ {w : World sizes}, Inv K w → w.db.lock (.node node.addr) = .locked v t →
          w.tree.heap node.addr = some body → ∃ b, w.db.mem.heap node.addr = some b ∧
            body.SameKids b := fun hinv hlocked hbody => by
        obtain ⟨b, hb, -, hkids⟩ := hinv.body hbody
        refine ⟨b, hb, hkids ?_⟩
        by_contra hcon
        exact nomatch ((hinv.obsolete _).mpr hcon).symm.trans hlocked
      obtain ⟨b, hb, hkids0⟩ := hsame hinv hv hheap
      obtain ⟨b', hb', hkids1⟩ := hsame hinv' ((hframe.locked_iff ⟨.node node.addr, v⟩).mpr hv) htree
      cases hmheap.symm.trans hb
      have hkids2 := hkids0.symm.trans hkids1
      cases body' with
      | leaf k v => rw [hb', hkids2.leaf]
      | inode n =>
        obtain ⟨n', rfl, hcount, hlayout⟩ := hkids2.inode
        obtain ⟨n1, hn1, hpre⟩ := hmpre hmheap
        cases hb'.symm.trans hn1
        rw [hb', INode.eq_of_kids hcount hlayout, hpre]
    · rw [Site.node.injEq] at ha
      subst ha
      exact (hframe.doomedBy ⟨g, hframe.doomed hg⟩).2.trans hmheap
  exact ⟨hplace, hnode, h.slotAt.of_sameSite hsite, Tree.read_of_sameSite hsite h.read,
    Tree.deref_eq_some_iff.mpr ⟨htree, htype⟩, Tree.deref_eq_some_iff.mpr ⟨hmem, hmtype⟩⟩

theorem firm_grip (t : Nat) (sl : Slot) (slot : Radix.Slot NodePtr UInt8) (node : NodePtr)
    (body body' : Body) : Firm K t fun w : World sizes => w.Grip t sl slot node body body' where
  steady _ _ hinv hinv' hframe h := h.frame hinv hinv' hframe
  aside w w' hinv _ haside h :=
    { place := haside.owns h.place
      own := haside.owns h.own
      slotAt := by rw [haside.tree]; exact h.slotAt
      read := by rw [haside.tree]; exact h.read
      tree := by rw [haside.tree]; exact h.tree
      mem := by
        rw [Tree.deref, haside.mem (hinv.known h.tree), ← Tree.deref]
        exact h.mem }

theorem firm_tidy (t : Nat) (l : Site) (X : Radix.Slot NodePtr UInt8 → Prop) :
    Firm K t fun w : World sizes => w.Tidy t l X where
  steady w w' hinv _ hframe h := by
    refine ⟨h.own.frame hframe, fun a ha => ?_, fun {slot p n n'} hslot hX hread' hn hn' => ?_⟩
    · subst ha
      obtain ⟨body, hbody⟩ := Option.ne_none_iff_exists'.mp (h.linked a rfl)
      obtain ⟨body', hbody', -⟩ := hframe.site h.own.guarded hbody
      rw [hbody']
      simp
    · subst hslot
      have hread := (Tree.read_iff_of_sameSite (hframe.site h.own.guarded) h.linked).mp hread'
      obtain ⟨body, hbody⟩ := hinv.tree_of_read hread
      exact right_of_samePrefix hinv hread (hframe.keyPrefix h.own.guarded hread)
        (hframe.known (hinv.known hbody)).2.2 (h.right rfl hX hread) hn hn'
  aside w w' hinv _ haside h := by
    refine ⟨haside.owns h.own, by rw [haside.tree]; exact h.linked, ?_⟩
    rw [haside.tree]
    intro slot p n n' hslot hX hread hn hn'
    obtain ⟨body, hbody⟩ := hinv.tree_of_read hread
    rw [haside.mem (hinv.known hbody)] at hn'
    exact h.right hslot hX hread hn hn'

theorem firm_prefixed (t : Nat) (slot : Radix.Slot NodePtr UInt8) (p : NodePtr)
    (keyPrefix keyPrefix' : KeyPrefix) :
    Firm K t fun w : World sizes => w.Prefixed t slot p keyPrefix keyPrefix' where
  steady w w' hinv hinv' hframe h := by
    have hread := Tree.read_of_sameSite (hframe.site h.place.guarded) h.read
    obtain ⟨hpre, hmpre⟩ := hframe.keyPrefix h.place.guarded h.read
    obtain ⟨n, hn, hkp⟩ := h.tree
    obtain ⟨m, hm, hkp'⟩ := h.mem
    obtain ⟨n', hn', hsame⟩ := hpre (Tree.deref_eq_some_iff.mp hn).1
    obtain ⟨m', hm', hsame'⟩ := hmpre (Tree.deref_eq_some_iff.mp hm).1
    refine ⟨h.place.frame hframe, hread, ⟨n', ?_, hsame.trans hkp⟩, m', ?_, hsame'.trans hkp'⟩
    · obtain ⟨body, hbody⟩ := hinv'.tree_of_read hread
      cases (Tree.deref_eq_some_iff.mp hbody).1.symm.trans hn'
      exact hbody
    · obtain ⟨body, hbody⟩ := (hframe.known (hinv.known hn)).1.1
      cases (Tree.deref_eq_some_iff.mp hbody).1.symm.trans hm'
      exact hbody
  aside w w' hinv _ haside h := by
    obtain ⟨n, hn, hkp⟩ := h.tree
    obtain ⟨m, hm, hkp'⟩ := h.mem
    refine ⟨haside.owns h.place, by rw [haside.tree]; exact h.read,
      ⟨n, by rw [haside.tree]; exact hn, hkp⟩, m, ?_, hkp'⟩
    rw [Tree.deref, haside.mem (hinv.known hn), ← Tree.deref]
    exact hm

/-- A leaf that the thread owns. -/
structure LeafGrip (w : World sizes) (t : Nat) (leaf : NodePtr) (k v : List UInt8) : Prop where
  own : w.Owns t (.node leaf.addr)
  tree : w.tree.deref leaf = some (.leaf k v)
  mem : w.db.mem.deref leaf = some (.leaf k v)

theorem firm_leafGrip (t : Nat) (leaf : NodePtr) (k v : List UInt8) :
    Firm K t fun w : World sizes => w.LeafGrip t leaf k v where
  steady w w' hinv _ hframe h := by
    obtain ⟨hheap, htype⟩ := Tree.deref_eq_some_iff.mp h.tree
    obtain ⟨body', hbody', hkids⟩ := hframe.site h.own.guarded hheap
    rw [hkids.leaf] at hbody'
    exact ⟨h.own.frame hframe, Tree.deref_eq_some_iff.mpr ⟨hbody', htype⟩,
      (hframe.known (hinv.known h.tree)).2.2 h.mem⟩
  aside w w' hinv _ haside h :=
    ⟨haside.owns h.own, by rw [haside.tree]; exact h.tree, (haside.known (hinv.known h.tree)).2.2 h.mem⟩

/-! ## 2. Taking and giving back locks -/

theorem Has.withLock (h : w.Has t kit) (hl : w.db.lock cs.lock = .free cs.version) :
    (w.withLock cs.lock (.locked cs.version t)).Has t { kit with locks := cs :: kit.locks } := by
  have hnot : ∀ cs' : CriticalSection, cs'.lock = cs.lock → cs' ∉ kit.locks := by
    intro cs' heq hmem
    have hlocked := (h.locks cs').mpr hmem
    rw [heq, hl] at hlocked
    cases hlocked
  refine { h with locks := fun cs' => ?_, nodupLocks := ?_ }
  · rw [withLock_lock, List.mem_cons]
    by_cases heq : cs'.lock = cs.lock
    · rw [if_pos heq, or_iff_left (hnot cs' heq), LockWord.locked.injEq]
      obtain ⟨l, v⟩ := cs
      obtain ⟨l', v'⟩ := cs'
      rw [CriticalSection.mk.injEq]
      exact ⟨fun hv => ⟨heq, hv.1.symm⟩, fun hv => ⟨hv.2.symm, rfl⟩⟩
    · rw [if_neg heq, h.locks cs', or_iff_right]
      rintro rfl
      exact heq rfl
  · exact List.nodup_cons.mpr ⟨hnot cs rfl, h.nodupLocks⟩

/-- A section that the thread has upgraded is given up, with the lock word `word`. -/
theorem Has.locks_of_perm {rest : List CriticalSection} (lock : Site → LockWord) (h : w.Has t kit)
    (hperm : kit.locks.Perm (cs :: rest)) (hfree : ∀ v, lock cs.lock ≠ .locked v t)
    (hother : ∀ l, l ≠ cs.lock → lock l = w.db.lock l) :
    (∀ cs' : CriticalSection, lock cs'.lock = .locked cs'.version t ↔ cs' ∈ rest) ∧
      rest.Nodup := by
  have hnodup := List.nodup_cons.mp (hperm.nodup_iff.mp h.nodupLocks)
  refine ⟨fun cs' => ?_, hnodup.2⟩
  have hold := h.locks cs'
  rw [hperm.mem_iff, List.mem_cons] at hold
  by_cases heq : cs'.lock = cs.lock
  · refine iff_of_false ?_ fun hmem => ?_
    · rw [heq]
      exact hfree _
    · -- Both sections were upgraded from the version of the lock word.
      have hlocked := hold.mpr (.inr hmem)
      have hcs := (h.locks cs).mpr (hperm.mem_iff.mpr List.mem_cons_self)
      rw [heq, hcs, LockWord.locked.injEq] at hlocked
      obtain ⟨l, v⟩ := cs
      obtain ⟨l', v'⟩ := cs'
      cases heq
      cases hlocked.1
      exact hnodup.1 hmem
  · rw [hother _ heq, hold, or_iff_right]
    rintro rfl
    exact heq rfl

theorem Keeps.unlock {v : Nat} (hl : w.db.lock l = .locked v t) :
    Keeps t w (w.withLock l (.free (v + 1))) where
  known hp := ⟨hp, rfl, id⟩
  lock {cs} hcs := by
    unfold Live
    rw [withLock_lock]
    split
    · rename_i heq
      rw [heq, hl] at hcs ⊢
      have hle : cs.version ≤ v := hcs
      refine ⟨Nat.le_succ_of_le hle, ?_⟩
      rintro (hlive | hlive)
      · rw [LockWord.free.injEq] at hlive
        omega
      · cases hlive
    · exact ⟨hcs, id⟩
  site _ := SameSite.refl _ _
  keyPrefix _ _ _ := ⟨SamePrefix.refl _ _, SamePrefix.refl _ _⟩
  ownPrefix _ _ _ _ _ _ _ := ⟨SamePrefix.refl _ _, SamePrefix.refl _ _⟩
  saw := Set.Subset.rfl
  insertsOnly := rfl

theorem Keeps.doom (w : World sizes) (a : Nat) (d : Doom) : Keeps t w (w.doom a d) where
  known {p} hp := by
    refine ⟨⟨hp.1, ?_⟩, rfl, id⟩
    refine hp.2.imp id fun hd => ?_
    rw [doom_doomed]
    split
    · simp
    · exact hd
  lock {cs} hcs := by
    unfold Live
    rw [doom_lock]
    split
    · refine ⟨trivial, ?_⟩
      rintro (hlive | hlive) <;> cases hlive
    · exact ⟨hcs, id⟩
  site _ := SameSite.refl _ _
  keyPrefix _ _ _ := ⟨SamePrefix.refl _ _, SamePrefix.refl _ _⟩
  ownPrefix _ _ _ _ _ _ _ := ⟨SamePrefix.refl _ _, SamePrefix.refl _ _⟩
  saw := Set.Subset.rfl
  insertsOnly := rfl

theorem Aside.doom (hinv : Inv K w) {v : Nat} {d : Doom} (hd : d.thread = t)
    (hl : w.db.lock (.node a) = .locked v t) : Aside t w (w.doom a d) := by
  have hkeep : ∀ {x d'}, w.doomed x = some d' → (w.doom a d).doomed x = some d' := by
    intro x d' hx
    rw [doom_doomed, if_neg]
    · exact hx
    · rintro rfl
      have hobs := (hinv.obsolete x).mpr (by rw [hx]; simp)
      exact nomatch hobs.symm.trans hl
  refine { Keeps.doom w a d with tree := rfl, owns := ?_, doomed := hkeep, mem := fun _ => rfl }
  rintro l (⟨v', hv'⟩ | ⟨x, rfl, g, hg⟩)
  · by_cases heq : l = .node a
    · subst heq
      refine .inr ⟨a, rfl, d.guard, ?_⟩
      rw [doom_doomed, if_pos rfl, ← hd]
    · refine .inl ⟨v', ?_⟩
      rw [doom_lock, if_neg heq]
      exact hv'
  · exact .inr ⟨x, rfl, g, hkeep hg⟩

theorem Neutral.refl (h : Inv K w) (t : Nat) : Neutral t w w where
  tree := rfl
  path := rfl
  job := rfl
  insertsOnly := rfl
  root := rfl
  lock := rfl
  doomed := rfl
  next := Nat.le_refl _
  mem := fun _ => .same rfl rfl
  retired := .inl rfl
  counted := h.counted

theorem Neutral.owns (hw : Neutral t w w') (hl : w.Owns t l) : w'.Owns t l := by
  unfold Owns DoomedBy at hl ⊢
  rw [hw.lock, hw.doomed]
  exact hl

theorem Neutral.asideOf (hinv : Inv K w) (hw : Neutral t w w')
    (hsame : ∀ {p}, w.Known p → w'.db.mem.heap p.addr = w.db.mem.heap p.addr) : Aside t w w' :=
  { hw.keeps hinv hsame with
    tree := hw.tree
    owns := hw.owns
    doomed := fun hd => by
      rw [hw.doomed]
      exact hd
    mem := hsame }

/-! ## 3. Retired nodes -/

theorem reachAvoiding_mono {s : OlcDb sizes} {X Y : Site → Prop} (h : s.ReachAvoiding X p)
    (hsub : ∀ l, Y l → X l) : s.ReachAvoiding Y p := by
  induction h with
  | root hroot hnot => exact .root hroot (mt (hsub _) hnot)
  | child _ hn hb hnot ih => exact .child ih hn hb (mt (hsub _) hnot)

/-- What child pointers lead to is linked.  An obsolete node may have lost children, but has no
    others. -/
theorem Inv.read_of_child {c : NodePtr} {n : INode NodePtr} {b : UInt8} (h : Inv K w)
    (hread : w.tree.graph.read slot = some p) (hp : w.db.mem.deref p = some (.inode n))
    (hb : n.child b = some c) : w.tree.graph.read (.child p b) = some c := by
  obtain ⟨body, hbody⟩ := h.tree_of_read hread
  obtain ⟨body', hbody', hwithin, -⟩ := h.body (Tree.deref_eq_some_iff.mp hbody).1
  cases hbody'.symm.trans (Tree.deref_eq_some_iff.mp hp).1
  obtain ⟨m, rfl, -, hkids⟩ := hwithin.of_inode
  rw [Tree.graph_read_child hbody, hkids b c hb]

/-- Child pointers lead to an obsolete node only through the place whose lock its thread has kept. -/
theorem Inv.not_avoiding_of_doomed {d : Doom} (h : Inv K w) (hd : w.doomed p.addr = some d) :
    ¬ w.db.ReachAvoiding (· = d.guard.lock) p := by
  suffices hreach : ∀ {q}, w.db.ReachAvoiding (· = d.guard.lock) q →
      (∃ slot, w.tree.graph.read slot = some q) ∧ w.doomed q.addr ≠ some d from
    fun hp => (hreach hp).2 hd
  intro q hq
  induction hq with
  | @root q hroot hnot =>
    have hread : w.tree.graph.read .root = some q := h.root.symm.trans hroot
    refine ⟨⟨.root, hread⟩, fun hd => ?_⟩
    rcases (h.held_at hd hread).2 with hsite | ⟨a, ha, -⟩
    · exact hnot hsite
    · cases ha
  | @child p c n b _ hp hb hnot ih =>
    obtain ⟨⟨slot, hread⟩, hlive⟩ := ih
    have hread' := h.read_of_child hread hp hb
    refine ⟨⟨_, hread'⟩, fun hd => ?_⟩
    rcases (h.held_at hd hread').2 with hsite | ⟨a, ha, hdoomed⟩
    · exact hnot hsite
    · rw [graphSite, Site.node.injEq] at ha
      exact hlive (ha ▸ hdoomed)

theorem Inv.read_of_avoiding {X : Site → Prop} (h : Inv K w) (hp : w.db.ReachAvoiding X p) :
    ∃ slot, w.tree.graph.read slot = some p := by
  induction hp with
  | root hroot _ => exact ⟨.root, h.root.symm.trans hroot⟩
  | child _ hn hb _ ih =>
    obtain ⟨slot, hread⟩ := ih
    exact ⟨_, h.read_of_child hread hn hb⟩

/-- Child pointers lead to a node that a thread has made obsolete only through places that it has
    locked. -/
theorem Inv.guarded_of_doomed (h : Inv K w) (hd : w.DoomedBy t p.addr) :
    ¬ w.db.ReachAvoiding (fun l => ∃ v, w.db.lock l = .locked v t) p := by
  intro hp
  obtain ⟨guard, hguard⟩ := hd
  obtain ⟨slot, hread⟩ := h.read_of_avoiding hp
  refine h.not_avoiding_of_doomed hguard (reachAvoiding_mono hp fun l hl => ?_)
  rw [hl]
  exact ⟨_, (h.held_at hguard hread).1⟩

/-- The world after a node is passed to `on_next_epoch_deallocate`. -/
def retire (w : World sizes) (t : Nat) (p : NodePtr) (body : Body) : World sizes :=
  { w with db := w.db.nowRetired t p body }

theorem Inv.retire (h : Inv K w) (hd : w.DoomedBy t p.addr)
    (hfirst : ∀ q, (t, q) ∈ w.db.retired → q.addr ≠ p.addr)
    (hbody : w.db.mem.heap p.addr = some body) : Neutral t w (w.retire t p body) := by
  have hother : ∀ u q, (u, q) ∈ w.db.retired → q.addr ≠ p.addr := by
    intro u q hq heq
    obtain ⟨g, hg⟩ := h.retired hq
    obtain ⟨g', hg'⟩ := hd
    rw [heq, hg', Option.some_inj, Doom.mk.injEq] at hg
    exact hfirst q (hg.1 ▸ hq) heq
  have hnot : p.addr ∉ w.db.retired.map (·.2.addr) := by
    intro hmem
    obtain ⟨⟨u, q⟩, hq, heq⟩ := List.mem_map.mp hmem
    exact hother u q hq heq
  exact {
    tree := rfl
    path := rfl
    job := rfl
    insertsOnly := rfl
    root := rfl
    lock := rfl
    doomed := rfl
    next := Nat.le_refl _
    mem := fun _ => .same rfl rfl
    retired := .inr ⟨p, rfl, ⟨(h.obsolete _).mpr (by obtain ⟨g, hg⟩ := hd; rw [hg]; simp), hother,
      h.guarded_of_doomed hd⟩, hd⟩
    counted := by
      have hset := OlcDb.counted_retire w.db t p (Accounted.uncounted sizes w.db.stats body)
      have hfree := h.counted.free ((if_neg hnot).trans hbody)
      rw [← hset] at hfree
      exact hfree }

theorem Has.retire (h : w.Has t kit) {rest : List Nat} (hperm : kit.unretired.Perm (p.addr :: rest))
    (body : Body) : (w.retire t p body).Has t { kit with unretired := rest } := by
  have hnodup := List.nodup_cons.mp (hperm.nodup_iff.mp h.nodupUnretired)
  refine { h with unretired := fun a => ?_, nodupUnretired := hnodup.2 }
  have hold := h.unretired a
  rw [hperm.mem_iff, List.mem_cons] at hold
  show a ∈ rest ↔ w.DoomedBy t a ∧ ∀ q, (t, q) ∈ (t, p) :: w.db.retired → q.addr ≠ a
  constructor
  · intro ha
    obtain ⟨hd, hfirst⟩ := hold.mp (.inr ha)
    refine ⟨hd, fun q hq => ?_⟩
    rcases List.mem_cons.mp hq with heq | hq
    · rintro rfl
      rw [(Prod.mk.inj heq).2] at ha
      exact hnodup.1 ha
    · exact hfirst q hq
  · rintro ⟨hd, hfirst⟩
    have hne : p.addr ≠ a := hfirst p List.mem_cons_self
    exact (hold.mpr ⟨hd, fun q hq => hfirst q (List.mem_cons_of_mem _ hq)⟩).resolve_left hne.symm

theorem Has.not_retired (h : w.Has t kit) (hinv : Inv K w) (ha : a ∈ kit.unretired) :
    a ∉ w.db.retired.map (·.2.addr) := by
  obtain ⟨⟨g, hg⟩, hfirst⟩ := (h.unretired a).mp ha
  intro hmem
  obtain ⟨⟨u, q⟩, hq, rfl⟩ := List.mem_map.mp hmem
  obtain ⟨g', hg'⟩ := hinv.retired hq
  cases hg.symm.trans hg'
  exact hfirst q hq rfl

theorem Has.doom (h : w.Has t kit) (hinv : Inv K w) {rest : List CriticalSection} {d : Doom}
    (hperm : kit.locks.Perm (cs :: rest)) (hcs : cs.lock = .node a) (hd : d.thread = t) :
    (w.doom a d).Has t { kit with
      locks := rest
      linked := a :: kit.linked
      unretired := a :: kit.unretired } := by
  have hlocked := (h.locks cs).mpr (hperm.mem_iff.mpr List.mem_cons_self)
  rw [hcs] at hlocked
  have hnone : w.doomed a = none := by
    by_contra hcon
    exact nomatch ((hinv.obsolete a).mpr hcon).symm.trans hlocked
  have hlocks := h.locks_of_perm (w.doom a d).db.lock hperm
    (fun v => by rw [doom_lock, if_pos hcs]; exact nofun)
    fun l hl => by rw [doom_lock, if_neg (hcs ▸ hl)]
  have hdoomed : ∀ x, (w.doom a d).DoomedBy t x ↔ x = a ∨ w.DoomedBy t x := by
    intro x
    unfold DoomedBy
    rw [doom_doomed]
    split
    · rename_i heq
      exact iff_of_true ⟨d.guard, by rw [← hd]⟩ (.inl heq)
    · rename_i hne
      exact (or_iff_right hne).symm
  refine { h with locks := hlocks.1, nodupLocks := hlocks.2, linked := ?_, unretired := ?_,
                  nodupUnretired := ?_ }
  · intro x hx
    rcases (hdoomed x).mp hx with rfl | hx
    · exact .inl List.mem_cons_self
    · exact (h.linked hx).imp (List.mem_cons_of_mem _) id
  · intro x
    rw [List.mem_cons, h.unretired x, hdoomed x]
    constructor
    · rintro (rfl | ⟨hx, hfirst⟩)
      · refine ⟨.inl rfl, fun q hq heq => ?_⟩
        obtain ⟨g, hg⟩ := hinv.retired hq
        rw [heq, hnone] at hg
        cases hg
      · exact ⟨.inr hx, hfirst⟩
    · rintro ⟨rfl | hx, hfirst⟩
      · exact .inl rfl
      · exact .inr ⟨hx, hfirst⟩
  · refine List.nodup_cons.mpr ⟨fun hmem => ?_, h.nodupUnretired⟩
    obtain ⟨g, hg⟩ := ((h.unretired a).mp hmem).1
    exact nomatch hnone.symm.trans hg

/-! ## 4. Linked nodes changed in memory -/

theorem unlinkChild_child {i : Nat} {b : UInt8} {c : NodePtr}
    (h : (n.unlinkChild i).child b = some c) : n.child b = some c := by
  obtain ⟨keyPrefix, count, layout⟩ := n
  cases layout with
  | i4 | i16 => exact h
  | i48 childIndexes children =>
    simp only [INode.child, INode.findChild, INode.unlinkChild, Function.update_apply] at h ⊢
    by_cases hb : b = UInt8.ofNat i
    · simp [hb] at h
    · simpa [hb, INode.slot] using h
  | i256 children =>
    simp only [INode.child, INode.findChild, INode.unlinkChild, Function.update_apply] at h ⊢
    by_cases hb : b = UInt8.ofNat i
    · simp [hb] at h
    · simp only [if_neg hb] at h
      split at h
      · rename_i hsome
        rw [if_pos hsome]
        simpa [INode.slot, Function.update_apply, hb] using h
      · cases h

/-- A node that the thread made obsolete loses a child. -/
theorem Inv.unlinkChild (h : Inv K w) (hhas : w.Has t kit) (ha : a ∈ kit.unretired)
    (hin : w.tree.heap a ≠ none) (hn : w.db.mem.heap a = some (.inode n)) (i : Nat) :
    Neutral t w (w.rewrite a (n.unlinkChild i)) where
  tree := rfl
  path := rfl
  job := rfl
  insertsOnly := rfl
  root := rfl
  lock := rfl
  doomed := rfl
  next := Nat.le_refl _
  mem x := by
    by_cases hx : x = a
    · subst hx
      have hpre : (n.unlinkChild i).keyPrefix = n.keyPrefix := rfl
      refine .obsolete hn ?_ rfl hin ((hhas.unretired x).mp ha).1 (OlcDb.unlinkChild_type n i) hpre
        fun b c => unlinkChild_child
      exact (Tree.set_heap ..).trans (if_pos rfl)
    · refine .same ?_ rfl
      exact (Tree.set_heap ..).trans (if_neg hx)
  retired := .inl rfl
  counted := by
    have hnot := hhas.not_retired h ha
    have hset := OlcDb.counted_set w.db hnot (some (.inode (n.unlinkChild i)))
    have hupdate := h.counted.updateInode ((if_neg hnot).trans hn) (OlcDb.unlinkChild_type n i)
    rw [← hset] at hupdate
    exact hupdate

/-- A node at a place that the thread owns gets another prefix. -/
theorem Inv.rewrite_prefix (h : Inv K w) (hread : w.tree.graph.read slot = some p)
    (hown : w.Owns t (graphSite slot)) (hnode : w.Owns t (.node p.addr) ∨ w.Removes t)
    (hnot : p.addr ∉ w.db.retired.map (·.2.addr))
    (hn : w.db.mem.heap p.addr = some (.inode n)) (keyPrefix : KeyPrefix) :
    Neutral t w (w.rewrite p.addr { n with keyPrefix }) where
  tree := rfl
  path := rfl
  job := rfl
  insertsOnly := rfl
  root := rfl
  lock := rfl
  doomed := rfl
  next := Nat.le_refl _
  mem x := by
    by_cases hx : x = p.addr
    · subst hx
      have hn' : (w.rewrite p.addr { n with keyPrefix }).db.mem.heap p.addr =
          some (.inode { n with keyPrefix }) := (Tree.set_heap ..).trans (if_pos rfl)
      exact .keyPrefix hn hn' rfl rfl rfl rfl hread hown hnode
    · refine .same ?_ rfl
      exact (Tree.set_heap ..).trans (if_neg hx)
  retired := .inl rfl
  counted := by
    have htype : INode.type { n with keyPrefix } = n.type := rfl
    have hset := OlcDb.counted_set w.db hnot (some (.inode { n with keyPrefix }))
    have hupdate := h.counted.updateInode ((if_neg hnot).trans hn) htype
    rw [← hset] at hupdate
    exact hupdate

/-- An action that also writes a node of the thread's own. -/
theorem Neutral.rewrite_own (hw : Neutral t w w') (h : Inv K w) (ha : w.priv a = some t)
    (ha' : w'.priv a = some t) (hn : w'.db.mem.heap a = some (.inode n))
    (hretired : w'.db.retired = w.db.retired) (htype : n'.type = n.type) :
    Neutral t w (w'.rewrite a n') where
  tree := hw.tree
  path := hw.path
  job := hw.job
  insertsOnly := hw.insertsOnly
  root := hw.root
  lock := hw.lock
  doomed := hw.doomed
  next := hw.next
  mem x := by
    by_cases hx : x = a
    · subst hx
      refine .own (.inl ha) (.inl ⟨ha', ?_, ?_⟩)
      · show (Tree.set _ _ _).heap x ≠ none
        rw [Tree.set_heap, if_pos rfl]
        simp
      · exact Nat.lt_of_lt_of_le (h.lt_next (h.priv ha).1) hw.next
    · have hheap : (w'.rewrite a n').db.mem.heap x = w'.db.mem.heap x :=
        (Tree.set_heap ..).trans (if_neg hx)
      cases hw.mem x with
      | same hmem hpriv => exact .same (hheap.trans hmem) hpriv
      | own hbefore hafter => exact .own hbefore (by rw [hheap]; exact hafter)
      | obsolete hn0 hn1 hpriv hin hd ht hp hc =>
        exact .obsolete hn0 (hheap.trans hn1) hpriv hin hd ht hp hc
      | keyPrefix hn0 hn1 hpriv hcount hlayout hp hread hown hnode =>
        exact .keyPrefix hn0 (hheap.trans hn1) hpriv hcount hlayout hp hread hown hnode
  retired := .inl hretired
  counted := by
    have hnot : a ∉ w'.db.retired.map (·.2.addr) := by
      rw [hretired]
      exact h.not_retired (h.priv ha).2.2.1
    have hset := OlcDb.counted_set w'.db hnot (some (.inode n'))
    have hupdate := hw.counted.updateInode ((if_neg hnot).trans hn) htype
    rw [← hset] at hupdate
    exact hupdate

/-- What of the knowledge of a loop does not depend on prefixes. -/
theorem Neutral.looks {κ : Type} [LawfulArtKey κ] {key : List UInt8} {parentCs : CriticalSection}
    {depth : Nat} {rem : κ} (hw : Neutral t w w') (h : Inv K w)
    (hlooks : w.Looks t key parentCs sl slot node depth rem) :
    w'.Looks t key parentCs sl slot node depth rem := by
  have hkeep : ∀ {p}, w.Known p → _ := fun hp => (hw.frame h (Nat.succ_ne_self t)).known hp
  have hlive : w'.Live t parentCs → w.Live t parentCs := by
    unfold Live
    rw [hw.lock]
    exact id
  exact {
    site := hlooks.site
    begun := by
      refine ⟨fun a ha => ?_, by rw [hw.lock]; exact hlooks.begun.atLeast⟩
      obtain ⟨p, hp, hpk⟩ := hlooks.begun.site a ha
      exact ⟨p, hp, (hkeep hpk).1⟩
    known := (hkeep hlooks.known).1
    holder := fun p b hslot => (hkeep (hlooks.holder p b hslot)).1
    below := fun hleaf => by
      rw [hw.path]
      exact hlooks.below (hlooks.known.leaf_of (hkeep hlooks.known).2.2 hleaf)
    slotAt := fun hl => by rw [hw.tree]; exact hlooks.slotAt (hlive hl)
    read := fun hl => by rw [hw.tree]; exact hlooks.read (hlive hl)
    start := by rw [hw.path]; exact hlooks.start
    depth_eq := by rw [hw.path]; exact hlooks.depth_eq
    rem_drop := hlooks.rem_drop }

/-- The prefixes below a lock, but for the nodes that got another one. -/
theorem Tidy.of_mem {X X' : Radix.Slot NodePtr UInt8 → Prop} (h : w.Tidy t l X)
    (htree : w'.tree = w.tree) (hown : w'.Owns t l) (hX : ∀ slot, X slot → X' slot)
    (hmem : ∀ {slot p n'}, graphSite slot = l → ¬ X' slot → w.tree.graph.read slot = some p →
      w'.db.mem.heap p.addr = some (.inode n') →
      ∃ n, w.db.mem.heap p.addr = some (.inode n) ∧ n.keyPrefix = n'.keyPrefix) :
    w'.Tidy t l X' := by
  refine ⟨hown, by rw [htree]; exact h.linked, ?_⟩
  rw [htree]
  intro slot p n n' hslot hnot hread hn hn'
  obtain ⟨m, hm, hpre⟩ := hmem hslot hnot hread hn'
  exact hpre.symm.trans (h.right hslot (mt (hX slot) hnot) hread hn hm)

theorem Has.rewrite_known (h : w.Has t kit) (hinv : Inv K w) (hp : w.Known p) (n : INode NodePtr) :
    (w.rewrite p.addr n).Has t kit := by
  refine { h with mem := fun {x b} hx => ?_ }
  show (w.db.mem.set _ _).heap x = _
  rw [Tree.set_heap, if_neg]
  · exact h.mem hx
  · rintro rfl
    exact hp.ne_own hinv (h.priv_of_mem hx) rfl

end World

namespace OlcDb

namespace Meets

open World

variable {α β : Type} {K : Set (List UInt8)} {t : Nat} {kit : Kit} {F : World sizes → Prop}
  {p q : OlcM sizes α} {Q : α → World sizes → Prop} {cs : CriticalSection} {node : NodePtr}

/-! ## 5. The rules -/

theorem writeGuard (hF : Lasting K t F) (hbegun : ∀ ⦃w⦄, F w → w.Begun cs)
    (hp : Meets K t { kit with locks := cs :: kit.locks }
      (fun w : World sizes => F w ∧ w.CleanAt t cs) p Q)
    (hq : Meets K t kit F q Q) :
    Meets K t kit F (OlcDb.writeGuard t cs >>= fun b => if b = true then p else q) Q := by
  refine act hF.steady fun w hinv hhas hw => ?_
  by_cases hfree : w.db.lock cs.lock = .free cs.version
  · obtain ⟨hinv', hstep⟩ := hinv.lock hfree (hbegun hw).site t
    have hkeeps : Keeps t w (w.withLock cs.lock (.locked cs.version t)) := .withLock hfree
    simp only [if_pos hfree]
    exact ⟨_, _, _, rfl, hinv', hstep, hhas.withLock hfree,
      ⟨hF hinv hinv' hkeeps hw, lasting_begun cs hinv hinv' hkeeps (hbegun hw),
        fun _ => hinv.clean hfree⟩, hp⟩
  · simp only [if_neg hfree]
    exact ⟨w, kit, F, rfl, hinv, .refl t w, hhas, hw, hq⟩

theorem unlock {rest : List CriticalSection} {k : Unit → OlcM sizes α} (hF : Lasting K t F)
    (hperm : kit.locks.Perm (cs :: rest)) (hlinked : kit.linked = [])
    (hclean : ∀ ⦃w : World sizes⦄, Inv K w → w.Live t cs → F w → w.Clean cs.lock)
    (hk : Meets K t { kit with locks := rest } F (k ()) Q) :
    Meets K t kit F (OlcDb.unlock cs.lock >>= k) Q := by
  refine act hF.steady fun w hinv hhas hw => ?_
  have hlocked := (hhas.locks cs).mpr (hperm.mem_iff.mpr List.mem_cons_self)
  have hguard : ∀ {a d}, w.doomed a = some d → w.tree.heap a ≠ none → d.guard.lock ≠ cs.lock := by
    intro a d hd hin heq
    obtain ⟨hheld, -⟩ := hinv.held hd hin
    rw [heq, hlocked, LockWord.locked.injEq] at hheld
    rcases hhas.linked ⟨d.guard, by rw [hd, hheld.2]⟩ with hmem | hnone
    · rw [hlinked] at hmem
      cases hmem
    · exact hin hnone
  obtain ⟨hinv', hstep⟩ := hinv.unlock hlocked (hclean hinv (.inr hlocked) hw) hguard
  have hlocks := hhas.locks_of_perm
    (w.withLock cs.lock (.free (cs.version + 1))).db.lock hperm
    (fun v => by rw [withLock_lock, if_pos rfl]; exact nofun)
    fun l hl => by rw [withLock_lock, if_neg hl]
  refine ⟨w.withLock cs.lock (.free (cs.version + 1)), { kit with locks := rest }, F, ?_, hinv', hstep,
    { hhas with locks := hlocks.1, nodupLocks := hlocks.2 }, hF hinv hinv' (.unlock hlocked) hw, hk⟩
  rw [hlocked]
  rfl

/-- A linked node is made obsolete: the thread has the lock `guard` of the place that points to it,
    or of one that points to a node for which it has done so before. -/
theorem unlockAndObsolete (guard : CriticalSection) {rest : List CriticalSection}
    {k : Unit → OlcM sizes α} (hF : Firm K t F) (hperm : kit.locks.Perm (cs :: rest))
    (hcs : cs.lock = .node node.addr) (hguard : guard ∈ rest)
    (hplace : ∀ ⦃w : World sizes⦄, Inv K w → w.Has t kit → F w → ∃ slot,
    w.tree.graph.read slot = some node ∧
      (graphSite slot = guard.lock ∨
        ∃ a, graphSite slot = .node a ∧ w.doomed a = some ⟨t, guard⟩))
    (hlinked : ∀ ⦃w⦄, F w → ∀ a ∈ kit.linked, w.doomed a = some ⟨t, guard⟩)
    (hk : Meets K t { kit with
        locks := rest
        linked := node.addr :: kit.linked
        unretired := node.addr :: kit.unretired }
      (fun w : World sizes => F w ∧ w.doomed node.addr = some ⟨t, guard⟩) (k ()) Q) :
    Meets K t kit F (OlcDb.unlockAndObsolete cs.lock >>= k) Q := by
  refine act hF.steady fun w hinv hhas hw => ?_
  have hlocked := (hhas.locks cs).mpr (hperm.mem_iff.mpr List.mem_cons_self)
  have hguarded := (hhas.locks guard).mpr (hperm.mem_iff.mpr (List.mem_cons_of_mem _ hguard))
  have hne : guard.lock ≠ cs.lock := by
    intro heq
    have hnodup := List.nodup_cons.mp (hperm.nodup_iff.mp hhas.nodupLocks)
    rw [heq, hlocked, LockWord.locked.injEq] at hguarded
    obtain ⟨l, v⟩ := cs
    obtain ⟨l', v'⟩ := guard
    cases heq
    cases hguarded.1
    exact hnodup.1 hguard
  rw [hcs] at hlocked hne
  obtain ⟨slot, hread, hslot⟩ := hplace hinv hhas hw
  obtain ⟨hinv', hstep⟩ := hinv.doom (d := ⟨t, guard⟩) hlocked rfl hguarded hne rfl hread hslot
    fun {x d'} hd hin heq => by
      obtain ⟨hheld, -⟩ := hinv.held hd hin
      rw [heq, hlocked, LockWord.locked.injEq] at hheld
      rcases hhas.linked ⟨d'.guard, by rw [hd, hheld.2]⟩ with hmem | hnone
      · have hd' := hlinked hw x hmem
        rw [hd, Option.some_inj] at hd'
        rw [hd'] at heq
        exact hne heq
      · exact hin hnone
  have haside : Aside t w (w.doom node.addr ⟨t, guard⟩) := .doom hinv rfl hlocked
  refine ⟨w.doom node.addr ⟨t, guard⟩, _, _, ?_, hinv', hstep, hhas.doom hinv hperm hcs rfl,
    ⟨hF.aside hinv hinv' haside hw, ?_⟩, hk⟩
  · rw [hcs]
    rfl
  · rw [doom_doomed, if_pos rfl]

/-- A node that the thread made obsolete is retired. -/
theorem onNextEpochDeallocate {rest : List Nat} {k : Unit → OlcM sizes α} (hF : Firm K t F)
    (hperm : kit.unretired.Perm (node.addr :: rest))
    (hknown : ∀ ⦃w : World sizes⦄, Inv K w → F w → w.Known node)
    (hk : Meets K t { kit with unretired := rest } F (k ()) Q) :
    Meets K t kit F (OlcDb.onNextEpochDeallocate t node >>= k) Q := by
  have hfacts : ∀ ⦃w : World sizes⦄, Inv K w → w.Has t kit → F w → ∃ body, w.db.mem.deref node = some body ∧
      w.DoomedBy t node.addr ∧ (∀ q, (t, q) ∈ w.db.retired → q.addr ≠ node.addr) ∧
      w.db.stats.decrement (sizes.of body) body.type =
        .ok (Accounted.uncounted sizes w.db.stats body) := by
    intro w hinv hhas hw
    obtain ⟨⟨body, hbody⟩, -⟩ := hknown hinv hw
    obtain ⟨hd, hfirst⟩ := (hhas.unretired node.addr).mp (hperm.mem_iff.mpr List.mem_cons_self)
    have hnot := hhas.not_retired hinv (hperm.mem_iff.mpr List.mem_cons_self)
    refine ⟨body, hbody, hd, hfirst, hinv.counted.decrement_eq (a := node.addr) ?_⟩
    exact (if_neg hnot).trans (Tree.deref_eq_some_iff.mp hbody).1
  refine tryAct hF.steady (fun w c e hinv hhas hw hf => ?_) fun w c b s hinv hhas hw hf => ?_
  · obtain ⟨body, hbody, -, -, hstats⟩ := hfacts hinv hhas hw
    simp only [hbody, hstats] at hf
    cases hf
  · obtain ⟨body, hbody, hd, hfirst, hstats⟩ := hfacts hinv hhas hw
    simp only [hbody, hstats] at hf
    obtain ⟨rfl, rfl⟩ := Prod.mk.inj (Except.ok.inj hf)
    have hneutral := hinv.retire hd hfirst (Tree.deref_eq_some_iff.mp hbody).1
    have haside := hneutral.asideOf hinv fun _ => rfl
    exact ⟨_, _, F, rfl, hneutral.inv hinv, hneutral.step hinv, hhas.retire hperm body,
      hF.aside hinv (hneutral.inv hinv) haside hw, hk⟩

/-- An action that leaves the tree as it is. -/
theorem neutral {f : Choice → OlcDb sizes → Except Fault (β × OlcDb sizes)} {kit' : Kit}
    {G : β → World sizes → Prop} {k : β → OlcM sizes α} (hF : Steady K t F)
    (hf : ∀ ⦃w : World sizes⦄, Inv K w → w.Has t kit → F w → ∃ b w', (∀ c, f c w.db = .ok (b, w'.db)) ∧
      Neutral t w w' ∧ w'.Has t kit' ∧ G b w')
    (hk : ∀ b, Meets K t kit' (G b) (k b) Q) : Meets K t kit F (OlcDb.tryAct f >>= k) Q := by
  refine tryAct hF (fun w c e hinv hhas hw hfail => ?_) fun w c b s hinv hhas hw hok => ?_
  · obtain ⟨b, w', hb, -⟩ := hf hinv hhas hw
    rw [hb c] at hfail
    cases hfail
  · obtain ⟨b', w', hb, hneutral, hhas', hw'⟩ := hf hinv hhas hw
    rw [hb c] at hok
    obtain ⟨rfl, rfl⟩ := Prod.mk.inj (Except.ok.inj hok)
    exact ⟨w', kit', G b', rfl, hneutral.inv hinv, hneutral.step hinv, hhas', hw', hk b'⟩

/-- An action that leaves the tree and what the thread has as they are. -/
theorem aside {f : Choice → OlcDb sizes → Except Fault (β × OlcDb sizes)} {G : β → World sizes → Prop}
    {k : β → OlcM sizes α} (hF : Steady K t F)
    (hf : ∀ ⦃w : World sizes⦄, Inv K w → w.Has t kit → F w → ∃ b w', (∀ c, f c w.db = .ok (b, w'.db)) ∧
      Neutral t w w' ∧ w'.Has t kit ∧ G b w')
    (hk : ∀ b, Meets K t kit (G b) (k b) Q) : Meets K t kit F (OlcDb.tryAct f >>= k) Q :=
  neutral hF hf hk

/-- An inner node of its own is written. -/
theorem writeOwn {f : Choice → OlcDb sizes → Except Fault (Unit × OlcDb sizes)} {x : Nat}
    {n n' : INode NodePtr} {rest : List (Nat × Body)} {k : Unit → OlcM sizes α} (hF : Firm K t F)
    (hnodes : kit.nodes = (x, .inode n) :: rest) (htype : n'.type = n.type)
    (hf : ∀ ⦃w : World sizes⦄, Inv K w → w.Has t kit → F w → ∀ c, f c w.db = .ok ((), w.db.written x n'))
    (hk : Meets K t { kit with nodes := (x, .inode n') :: rest } F (k ()) Q) :
    Meets K t kit F (OlcDb.tryAct f >>= k) Q := by
  refine neutral hF.steady (fun w hinv hhas hw => ?_) fun _ => hk
  have hmem : (x, .inode n) ∈ kit.nodes := by
    rw [hnodes]
    exact List.mem_cons_self
  have hpriv := hhas.priv_of_mem hmem
  have hneutral := hinv.rewrite_own hpriv (hhas.mem hmem) htype
  have haside := hneutral.asideOf hinv fun {p} hp => by
    show (w.db.mem.set _ _).heap p.addr = _
    rw [Tree.set_heap, if_neg (hp.ne_own hinv hpriv)]
  exact ⟨(), w.rewrite x n', hf hinv hhas hw, hneutral, hhas.rewrite_own hnodes n',
    hF.aside hinv (hneutral.inv hinv) haside hw⟩

/-- Counters that do not depend on what is in memory. -/
theorem account {f : Stats → Stats} {k : Unit → OlcM sizes α} (hF : Firm K t F)
    (hcounts : ∀ st, (f st).nodeCounts = st.nodeCounts)
    (hmemory : ∀ st, (f st).currentMemoryUse = st.currentMemoryUse)
    (hk : Meets K t kit F (k ()) Q) :
    Meets K t kit F ((OlcDb.act fun s => ((), { s with stats := f s.stats })) >>= k) Q := by
  refine act hF.steady fun w hinv hhas hw => ?_
  have hneutral : Neutral t w { w with db := { w.db with stats := f w.db.stats } } := {
    tree := rfl
    path := rfl
    job := rfl
    insertsOnly := rfl
    root := rfl
    lock := rfl
    doomed := rfl
    next := Nat.le_refl _
    mem := fun _ => .same rfl rfl
    retired := .inl rfl
    counted := ⟨hinv.counted.fresh, fun type => by rw [hcounts]; exact hinv.counted.counts type,
      by rw [hmemory]; exact hinv.counted.memory⟩ }
  exact ⟨_, _, F, rfl, hneutral.inv hinv, hneutral.step hinv, { hhas with },
    hF.aside hinv (hneutral.inv hinv) (hneutral.asideOf hinv fun _ => rfl) hw, hk⟩

end Meets

end OlcDb

end Unodb
