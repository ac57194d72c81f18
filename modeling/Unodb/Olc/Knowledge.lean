import Unodb.Olc.Actions
import Unodb.Tree.Descent

/-!
# What a thread knows and has

What a thread has read of the tree holds for as long as its critical sections are valid or upgraded,
and what it has for itself no other thread changes.
-/

namespace Unodb

namespace World

variable {K : Set (List UInt8)} {w w' : World sizes} {t : Nat} {l : Site} {p q : NodePtr} {b : UInt8}
  {slot : Radix.Slot NodePtr UInt8} {cs : CriticalSection} {n : INode NodePtr}

/-! ## 1. Critical sections -/

/-- The lock word is still the one that the section was begun with, or the thread has upgraded the
    section. -/
def Live (w : World sizes) (t : Nat) (cs : CriticalSection) : Prop :=
  w.db.lock cs.lock = .free cs.version ∨ w.db.lock cs.lock = .locked cs.version t

theorem Live.guarded (h : w.Live t cs) : w.Guarded t cs.lock :=
  h.elim (fun hfree => .inl ⟨_, hfree⟩) fun hlocked => .inr (.inl ⟨_, hlocked⟩)

theorem Live.ne_obsolete (h : w.Live t cs) : w.db.lock cs.lock ≠ .obsolete := by
  rcases h with hfree | hlocked
  · rw [hfree]
    simp
  · rw [hlocked]
    simp

/-- What the thread relies on between its actions that change no linked node. -/
structure Keeps (t : Nat) (w w' : World sizes) : Prop where
  known : ∀ {p}, w.Known p → w'.Known p ∧ w'.path p = w.path p ∧
    ∀ {k v}, w.db.mem.deref p = some (.leaf k v) → w'.db.mem.deref p = some (.leaf k v)
  lock : ∀ {cs : CriticalSection}, (w.db.lock cs.lock).AtLeast cs.version →
    (w'.db.lock cs.lock).AtLeast cs.version ∧ (w'.Live t cs → w.Live t cs)
  site : ∀ {cs : CriticalSection}, w.Live t cs → SameSite w.tree w'.tree cs.lock
  keyPrefix : ∀ {cs : CriticalSection} {slot p}, w.Live t cs → graphSite slot = cs.lock →
    w.tree.graph.read slot = some p →
    SamePrefix w.tree w'.tree p.addr ∧ SamePrefix w.db.mem w'.db.mem p.addr
  ownPrefix : w.insertsOnly → ∀ {cs : CriticalSection} {slot p}, w.Live t cs →
    cs.lock = .node p.addr → w.tree.graph.read slot = some p →
    SamePrefix w.tree w'.tree p.addr ∧ SamePrefix w.db.mem w'.db.mem p.addr
  saw : (w.job t).saw ⊆ (w'.job t).saw
  insertsOnly : w'.insertsOnly = w.insertsOnly

theorem Frame.live (h : Frame t w w') (hcs : (w.db.lock cs.lock).AtLeast cs.version) :
    (w'.db.lock cs.lock).AtLeast cs.version ∧ (w'.Live t cs → w.Live t cs) := by
  have hword := h.lock cs.lock
  unfold Live
  generalize w.db.lock cs.lock = word at hword hcs
  generalize w'.db.lock cs.lock = word' at hword
  cases hword with
  | same => exact ⟨hcs, id⟩
  | lock v hu =>
    refine ⟨hcs, ?_⟩
    rintro (hlive | hlive)
    · cases hlive
    · cases hlive
      exact absurd rfl hu
  | unlock v hu =>
    have hle : cs.version ≤ v := hcs
    refine ⟨Nat.le_succ_of_le hle, ?_⟩
    rintro (hlive | hlive)
    · rw [LockWord.free.injEq] at hlive
      omega
    · cases hlive
  | obsolete v hu =>
    refine ⟨trivial, ?_⟩
    rintro (hlive | hlive) <;> cases hlive

theorem Frame.keeps (h : Frame t w w') : Keeps t w w' where
  known := h.known
  lock := h.live
  site hlive := h.site hlive.guarded
  keyPrefix hlive hslot hread := h.keyPrefix (hslot ▸ hlive.guarded) hread
  ownPrefix honly {_ _ _} hlive hslot hread := h.ownPrefix honly (hslot ▸ hlive.guarded) hread
  saw := by rw [h.job]
  insertsOnly := h.insertsOnly

/-- A fact that no action of another thread changes. -/
def Steady (K : Set (List UInt8)) (t : Nat) (F : World sizes → Prop) : Prop :=
  ∀ ⦃w w'⦄, Inv K w → Inv K w' → Frame t w w' → F w → F w'

/-- A fact that holds on while the thread changes no linked node, whatever the others do. -/
def Lasting (K : Set (List UInt8)) (t : Nat) (F : World sizes → Prop) : Prop :=
  ∀ ⦃w w'⦄, Inv K w → Inv K w' → Keeps t w w' → F w → F w'

theorem Lasting.steady {F : World sizes → Prop} (h : Lasting K t F) : Steady K t F :=
  fun _ _ hinv hinv' hframe => h hinv hinv' hframe.keeps

theorem Lasting.const (F : Prop) : Lasting K t fun _ : World sizes => F := fun _ _ _ _ _ hF => hF

theorem Lasting.and {F G : World sizes → Prop} (hF : Lasting K t F) (hG : Lasting K t G) :
    Lasting K t fun w : World sizes => F w ∧ G w :=
  fun _ _ hinv hinv' hkeeps h => ⟨hF hinv hinv' hkeeps h.1, hG hinv hinv' hkeeps h.2⟩

theorem Steady.and {F G : World sizes → Prop} (hF : Steady K t F) (hG : Steady K t G) :
    Steady K t fun w : World sizes => F w ∧ G w :=
  fun _ _ hinv hinv' hframe h => ⟨hF hinv hinv' hframe h.1, hG hinv hinv' hframe h.2⟩

/-! ## 2. What belongs to a thread -/

/-- What belongs to a thread: the sections it has upgraded, the nodes it has for itself, the nodes it
    has made obsolete and has still to unlink or to retire, and its job. -/
structure Kit where
  locks : List CriticalSection := []
  nodes : List (Nat × Body) := []
  linked : List Nat := []
  unretired : List Nat := []
  request : Request
  did : Bool := false

/-- The thread has the kit. -/
structure Has (w : World sizes) (t : Nat) (kit : Kit) : Prop where
  locks : ∀ cs : CriticalSection, w.db.lock cs.lock = .locked cs.version t ↔ cs ∈ kit.locks
  nodupLocks : kit.locks.Nodup
  nodes : ∀ a, w.priv a = some t ↔ a ∈ kit.nodes.map Prod.fst
  nodup : (kit.nodes.map Prod.fst).Nodup
  mem : ∀ {a body}, (a, body) ∈ kit.nodes → w.db.mem.heap a = some body
  linked : ∀ {a}, w.DoomedBy t a → a ∈ kit.linked ∨ w.tree.heap a = none
  unretired : ∀ a, a ∈ kit.unretired ↔
    w.DoomedBy t a ∧ ∀ p, (t, p) ∈ w.db.retired → p.addr ≠ a
  nodupUnretired : kit.unretired.Nodup
  request : (w.job t).request = kit.request
  did : (w.job t).did = kit.did

theorem Frame.locked_iff (h : Frame t w w') (cs : CriticalSection) :
    w'.db.lock cs.lock = .locked cs.version t ↔ w.db.lock cs.lock = .locked cs.version t := by
  have hword := h.lock cs.lock
  generalize w.db.lock cs.lock = word at hword
  generalize w'.db.lock cs.lock = word' at hword
  cases hword with
  | same => rfl
  | lock v hu => exact iff_of_false (by rintro ⟨⟩; exact hu rfl) (by rintro ⟨⟩)
  | unlock v hu => exact iff_of_false (by rintro ⟨⟩) (by rintro ⟨⟩; exact hu rfl)
  | obsolete v hu => exact iff_of_false (by rintro ⟨⟩) (by rintro ⟨⟩; exact hu rfl)

theorem Has.frame {kit : Kit} (h : w.Has t kit) (hframe : Frame t w w') : w'.Has t kit where
  locks cs := (hframe.locked_iff cs).trans (h.locks cs)
  nodupLocks := h.nodupLocks
  nodes a := (hframe.priv a).1.trans (h.nodes a)
  nodup := h.nodup
  mem {a body} ha := by
    have hpriv : w.priv a = some t := (h.nodes a).mpr (List.mem_map_of_mem ha)
    exact ((hframe.priv a).2 hpriv).trans (h.mem ha)
  linked {a} ha := by
    obtain ⟨ha', -⟩ := hframe.doomedBy ha
    refine (h.linked ha').imp id fun hnone => hframe.gone ?_ hnone
    obtain ⟨guard, hguard⟩ := ha'
    rw [hguard]
    simp
  unretired a := by
    rw [h.unretired a]
    refine and_congr ⟨fun ⟨guard, hguard⟩ => ⟨guard, hframe.doomed hguard⟩,
      fun ha => (hframe.doomedBy ha).1⟩ ?_
    exact forall_congr' fun p => imp_congr_left (hframe.retired p).symm
  nodupUnretired := h.nodupUnretired
  request := by
    rw [hframe.job]
    exact h.request
  did := by
    rw [hframe.job]
    exact h.did

theorem Has.not_locked {kit : Kit} (h : w.Has t kit) (hkit : kit.locks = []) (l : Site) (v : Nat) :
    w.db.lock l ≠ .locked v t := by
  intro hlocked
  have hmem := (h.locks ⟨l, v⟩).mp hlocked
  rw [hkit] at hmem
  cases hmem

/-- A thread that has no lock can rely on a section only while it is valid. -/
theorem Has.valid_of_live {kit : Kit} (h : w.Has t kit) (hkit : kit.locks = [])
    (hlive : w.Live t cs) : w.db.Valid cs :=
  hlive.resolve_right (h.not_locked hkit _ _)

/-! ## 3. Actions of the thread itself -/

/-- An action that stores no pointer and changes no lock but to upgrade a section. -/
theorem Keeps.of_mem (htree : w'.tree = w.tree) (hpath : w'.path = w.path)
    (hdoomed : w'.doomed = w.doomed) (hlock : w'.db.lock = w.db.lock)
    (hjob : w'.job = w.job) (honly : w'.insertsOnly = w.insertsOnly)
    (hmem : ∀ {p}, w.Known p → w'.db.mem.heap p.addr = w.db.mem.heap p.addr)
    (hread : ∀ {slot p}, w.tree.graph.read slot = some p → w.Known p) : Keeps t w w' where
  known {p} hp := by
    have hderef : w'.db.mem.deref p = w.db.mem.deref p := by
      rw [Tree.deref, Tree.deref, hmem hp]
    refine ⟨⟨?_, ?_⟩, by rw [hpath], fun hleaf => hderef.trans hleaf⟩
    · rw [hderef]
      exact hp.1
    · rw [htree, hdoomed]
      exact hp.2
  lock {cs} hcs := by
    rw [hlock]
    refine ⟨hcs, fun hlive => ?_⟩
    rw [Live, hlock] at hlive
    exact hlive
  site _ := htree ▸ SameSite.refl _ _
  keyPrefix {cs slot p} _ _ hslot := by
    refine ⟨htree ▸ SamePrefix.refl _ _, fun hn => ⟨_, ?_, rfl⟩⟩
    rw [hmem (hread hslot), hn]
  ownPrefix _ cs slot p _ _ hslot := by
    refine ⟨htree ▸ SamePrefix.refl _ _, fun hn => ⟨_, ?_, rfl⟩⟩
    rw [hmem (hread hslot), hn]
  saw := by rw [hjob]
  insertsOnly := honly

theorem Keeps.of_db (htree : w'.tree = w.tree) (hpath : w'.path = w.path)
    (hdoomed : w'.doomed = w.doomed) (hdb : w'.db = w.db)
    (hsaw : (w.job t).saw ⊆ (w'.job t).saw) (honly : w'.insertsOnly = w.insertsOnly) :
    Keeps t w w' where
  known {p} hp := by
    refine ⟨⟨?_, ?_⟩, by rw [hpath], fun hleaf => hdb ▸ hleaf⟩
    · rw [hdb]
      exact hp.1
    · rw [htree, hdoomed]
      exact hp.2
  lock {cs} hcs := by
    rw [hdb]
    refine ⟨hcs, fun hlive => ?_⟩
    rw [Live, hdb] at hlive
    exact hlive
  site _ := htree ▸ SameSite.refl _ _
  keyPrefix _ _ _ := ⟨htree ▸ SamePrefix.refl _ _, hdb ▸ SamePrefix.refl _ _⟩
  ownPrefix _ _ _ _ _ _ _ := ⟨htree ▸ SamePrefix.refl _ _, hdb ▸ SamePrefix.refl _ _⟩
  saw := hsaw
  insertsOnly := honly

/-- The upgrade of a section. -/
theorem Keeps.withLock {l : Site} {v : Nat} (hl : w.db.lock l = .free v) :
    Keeps t w (w.withLock l (.locked v t)) where
  known hp := ⟨hp, rfl, id⟩
  lock {cs} hcs := by
    unfold Live
    rw [withLock_lock]
    split
    · rename_i heq
      rw [heq, hl] at hcs ⊢
      refine ⟨hcs, ?_⟩
      rintro (hlive | hlive)
      · cases hlive
      · cases hlive
        exact .inl rfl
    · exact ⟨hcs, id⟩
  site _ := SameSite.refl _ _
  keyPrefix _ _ _ := ⟨SamePrefix.refl _ _, SamePrefix.refl _ _⟩
  ownPrefix _ _ _ _ _ _ _ := ⟨SamePrefix.refl _ _, SamePrefix.refl _ _⟩
  saw := Set.Subset.rfl
  insertsOnly := rfl

/-- The world with another job of the thread. -/
def setJob (w : World sizes) (t : Nat) (job : Job) : World sizes :=
  { w with job := Function.update w.job t job }

@[simp] theorem setJob_self (w : World sizes) (t : Nat) (job : Job) : (w.setJob t job).job t = job :=
  Function.update_self _ _ _

theorem setJob_of_ne (w : World sizes) {u : Nat} (hu : u ≠ t) (job : Job) :
    (w.setJob t job).job u = w.job u :=
  Function.update_of_ne hu _ _

/-- The thread has found that a response which changes nothing was right. -/
def Saw (w : World sizes) (t : Nat) (r : OlcDb.Response) : Prop := r ∈ (w.job t).saw

/-- The world after the thread has found that a response which changes nothing is right. -/
def withSaw (w : World sizes) (t : Nat) (r : OlcDb.Response) : World sizes :=
  w.setJob t { w.job t with saw := insert r (w.job t).saw }

theorem withSaw_saw (w : World sizes) (t : Nat) (r : OlcDb.Response) : (w.withSaw t r).Saw t r := by
  rw [Saw, withSaw, setJob_self]
  exact Set.mem_insert r _

theorem Step.withSaw {r : OlcDb.Response} (h : Idle w.tree (w.job t).request r) :
    Step t w (w.withSaw t r) where
  frame {u} hu := { Frame.refl u w with job := setJob_of_ne w hu _ }
  job := .saw r (setJob_self w t _) rfl h
  retired := .inl rfl

theorem Keeps.withSaw (w : World sizes) (r : OlcDb.Response) : Keeps t w (w.withSaw t r) := by
  refine .of_db rfl rfl rfl rfl ?_ rfl
  rw [World.withSaw, setJob_self]
  exact Set.subset_insert r _

theorem Inv.withSaw (h : Inv K w) (t : Nat) (r : OlcDb.Response) : Inv K (w.withSaw t r) :=
  { h with
    not_removes := by
      rintro honly u ⟨k, hk⟩
      refine h.not_removes honly u ⟨k, ?_⟩
      rw [← hk]
      by_cases hu : u = t
      · rw [hu, World.withSaw, setJob_self]
      · rw [World.withSaw, setJob_of_ne w hu] }

theorem Has.withSaw {kit : Kit} (h : w.Has t kit) (r : OlcDb.Response) : (w.withSaw t r).Has t kit :=
  { h with
    request := by
      rw [World.withSaw, setJob_self]
      exact h.request
    did := by
      rw [World.withSaw, setJob_self]
      exact h.did }

/-- What holds if no thread removes keys. -/
theorem Lasting.only {F : World sizes → Prop} (hF : Lasting K t F) :
    Lasting K t fun w : World sizes => w.insertsOnly → F w :=
  fun _ _ hinv hinv' hkeeps h honly => hF hinv hinv' hkeeps (h (hkeeps.insertsOnly ▸ honly))

theorem lasting_saw (t : Nat) (r : OlcDb.Response) : Lasting K t fun w : World sizes => w.Saw t r :=
  fun _ _ _ _ hkeeps hsaw => hkeeps.saw hsaw

/-! ## 4. What a thread has read of the tree -/

/-- The lock is that of the root pointer or of a node that other threads may know. -/
def KnownSite (w : World sizes) (l : Site) : Prop := ∀ a, l = .node a → ∃ p, p.addr = a ∧ w.Known p

theorem knownSite_root (w : World sizes) : w.KnownSite .root := by
  intro a ha
  cases ha

/-- A section that was begun at such a lock. -/
structure Begun (w : World sizes) (cs : CriticalSection) : Prop where
  site : w.KnownSite cs.lock
  atLeast : (w.db.lock cs.lock).AtLeast cs.version

theorem lasting_known (p : NodePtr) : Lasting K t fun w : World sizes => w.Known p :=
  fun _ _ _ _ hkeeps hp => (hkeeps.known hp).1

theorem lasting_begun (cs : CriticalSection) : Lasting K t fun w : World sizes => w.Begun cs := by
  intro w w' _ _ hkeeps h
  refine ⟨fun a ha => ?_, (hkeeps.lock h.atLeast).1⟩
  obtain ⟨p, hp, hknown⟩ := h.site a ha
  exact ⟨p, hp, (hkeeps.known hknown).1⟩

/-- What holds while a section is valid or upgraded. -/
theorem Lasting.live {G : World sizes → Prop}
    (hG : ∀ {w w'}, Inv K w → Inv K w' → Keeps t w w' → w.Begun cs → w.Live t cs → G w → G w') :
    Lasting K t fun w : World sizes => w.Begun cs ∧ (w.Live t cs → G w) := by
  rintro w w' hinv hinv' hkeeps ⟨hbegun, h⟩
  refine ⟨lasting_begun cs hinv hinv' hkeeps hbegun, fun hlive => ?_⟩
  have hlive0 : w.Live t cs := (hkeeps.lock hbegun.atLeast).2 hlive
  exact hG hinv hinv' hkeeps hbegun hlive0 (h hlive0)

/-- The node of a section that is valid or upgraded is linked. -/
theorem Begun.linked (hinv : Inv K w) (h : w.Begun cs) (hlive : w.Live t cs)
    (hq : cs.lock = .node q.addr) : w.tree.heap q.addr ≠ none := by
  obtain ⟨p, hp, hknown⟩ := h.site _ hq
  have hlock : w.db.lock (.node p.addr) ≠ .obsolete := by
    rw [hp, ← hq]
    exact hlive.ne_obsolete
  obtain ⟨body, hbody⟩ := hinv.linked_of_known hknown hlock
  rw [← hp, (Tree.deref_eq_some_iff.mp hbody).1]
  simp

theorem Keeps.read_iff (h : Keeps t w w') (hinv : Inv K w) (hbegun : w.Begun cs)
    (hlive : w.Live t cs) (hslot : graphSite slot = cs.lock) :
    w'.tree.graph.read slot = some p ↔ w.tree.graph.read slot = some p := by
  refine Tree.read_iff_of_sameSite (hslot ▸ h.site hlive) fun a ha => ?_
  have hlinked := hbegun.linked hinv hlive (q := ⟨a, .leaf⟩) (hslot.symm.trans ha)
  exact hlinked

/-- The prefix of a linked node is right if it was and has not changed, nor what it ought to be. -/
theorem right_of_samePrefix (hinv : Inv K w) (hread : w.tree.graph.read slot = some p)
    (hpre : SamePrefix w.tree w'.tree p.addr ∧ SamePrefix w.db.mem w'.db.mem p.addr)
    (hleaf : ∀ {k v}, w.db.mem.deref p = some (.leaf k v) → w'.db.mem.deref p = some (.leaf k v))
    (hright : ∀ {n n'}, w.tree.heap p.addr = some (.inode n) →
      w.db.mem.heap p.addr = some (.inode n') → n'.keyPrefix = n.keyPrefix) {n' : INode NodePtr}
    (hn : w'.tree.heap p.addr = some (.inode n)) (hn' : w'.db.mem.heap p.addr = some (.inode n')) :
    n'.keyPrefix = n.keyPrefix := by
  obtain ⟨body, hbody⟩ := hinv.tree_of_read hread
  obtain ⟨hheap, htype⟩ := Tree.deref_eq_some_iff.mp hbody
  obtain ⟨body', hbody', hwithin, -⟩ := hinv.body hheap
  cases body with
  | leaf k v =>
    obtain rfl := hwithin.leaf
    have hsame := hleaf (Tree.deref_eq_some_iff.mpr ⟨hbody', htype⟩)
    exact nomatch hn'.symm.trans (Tree.deref_eq_some_iff.mp hsame).1
  | inode m =>
    obtain ⟨m', rfl, -⟩ := hwithin.inode
    obtain ⟨n1, hn1, h1⟩ := hpre.1 hheap
    obtain ⟨n2, hn2, h2⟩ := hpre.2 hbody'
    cases hn.symm.trans hn1
    cases hn'.symm.trans hn2
    exact h2.trans ((hright hheap hbody').trans h1.symm)

/-- A section below whose place the prefixes are right while it is valid or upgraded. -/
def CleanAt (w : World sizes) (t : Nat) (cs : CriticalSection) : Prop :=
  w.Begun cs ∧ (w.Live t cs → w.Clean cs.lock)

theorem lasting_clean (cs : CriticalSection) : Lasting K t fun w : World sizes => w.CleanAt t cs := by
  refine Lasting.live ?_
  intro w w' hinv _ hkeeps hbegun hlive hclean slot p n n' hslot hread' hn hn'
  have hread := (hkeeps.read_iff hinv hbegun hlive hslot).mp hread'
  obtain ⟨body, hbody⟩ := hinv.tree_of_read hread
  exact right_of_samePrefix hinv hread (hkeeps.keyPrefix hlive hslot hread)
    (hkeeps.known (hinv.known hbody)).2.2 (hclean hslot hread) hn hn'

end World

namespace Tree

variable {t t' : Tree} {sl : Slot} {slot : Radix.Slot NodePtr UInt8}

theorem SlotAt.of_sameSite (h : t.SlotAt sl slot)
    (hsite : World.SameSite t t' (graphSite slot)) : t'.SlotAt sl slot := by
  cases h with
  | root => exact .root
  | @child p n b ci i hp hfind =>
    obtain ⟨hheap, htype⟩ := deref_eq_some_iff.mp hp
    obtain ⟨body', hbody', hkids⟩ := hsite hheap
    obtain ⟨n', rfl, hcount, hlayout⟩ := hkids.inode
    have hp' : t'.deref p = some (.inode n') :=
      deref_eq_some_iff.mpr ⟨hbody', hkids.type_eq.trans htype⟩
    have hfind' : n'.findChild b = some (ci, i) := by
      rw [INode.findChild_of_kids hcount hlayout]
      exact hfind
    exact .child hp' hfind'

theorem SlotAt.site (h : t.SlotAt sl slot) : sl.site = graphSite slot := by
  cases h with
  | root => rfl
  | child => rfl

end Tree

namespace World

variable {κ : Type} [LawfulArtKey κ] {K : Set (List UInt8)} {w w' : World sizes} {t : Nat} {k : List UInt8}
  {parentCs nodeCs : CriticalSection} {sl : Slot} {slot : Radix.Slot NodePtr UInt8}
  {node : NodePtr} {depth : Nat} {rem : κ} {P R : INode NodePtr → Prop}

/-- The thread has read the root pointer within a section. -/
structure AtRoot (w : World sizes) (t version : Nat) (r : Option NodePtr) : Prop where
  begun : w.Begun ⟨.root, version⟩
  root : w.Live t ⟨.root, version⟩ → w.tree.root = r
  known : ∀ p, r = some p → w.Known p

theorem lasting_atRoot (t version : Nat) (r : Option NodePtr) :
    Lasting K t fun w : World sizes => w.AtRoot t version r := by
  intro w w' hinv hinv' hkeeps h
  refine ⟨lasting_begun _ hinv hinv' hkeeps h.begun, fun hlive' => ?_,
    fun p hp => (hkeeps.known (h.known p hp)).1⟩
  have hlive := (hkeeps.lock h.begun.atLeast).2 hlive'
  have hsame : w'.tree.root = w.tree.root := hkeeps.site hlive
  exact hsame.trans (h.root hlive)

/-- A loop that looks for `k` has read a pointer at a place in memory within a section. -/
structure Looks (w : World sizes) (t : Nat) (k : List UInt8) (parentCs : CriticalSection) (sl : Slot)
    (slot : Radix.Slot NodePtr UInt8) (node : NodePtr) (depth : Nat) (rem : κ) : Prop where
  site : graphSite slot = parentCs.lock
  begun : w.Begun parentCs
  known : w.Known node
  holder : ∀ p b, slot = .child p b → w.Known p
  below : ∀ {k' u'}, w.db.mem.deref node = some (.leaf k' u') → slot.start w.path <+: k'
  slotAt : w.Live t parentCs → w.tree.SlotAt sl slot
  read : w.Live t parentCs → w.tree.graph.read slot = some node
  start : slot.start w.path <+: k
  depth_eq : (slot.start w.path).length = depth
  rem_drop : LawfulArtKey.Rem rem (k.drop depth)

/-- A leaf that other threads may know was the same leaf before. -/
theorem Known.leaf_of {p : NodePtr} (hp : w.Known p)
    (hkeep : ∀ {k v}, w.db.mem.deref p = some (.leaf k v) → w'.db.mem.deref p = some (.leaf k v))
    {k v : List UInt8} (hleaf : w'.db.mem.deref p = some (.leaf k v)) :
    w.db.mem.deref p = some (.leaf k v) := by
  obtain ⟨⟨body, hbody⟩, -⟩ := hp
  cases body with
  | leaf k' v' =>
    rw [hkeep hbody, Option.some_inj] at hleaf
    rw [hbody, hleaf]
  | inode n =>
    have htype := (Tree.deref_eq_some_iff.mp hleaf).2.trans (Tree.deref_eq_some_iff.mp hbody).2.symm
    exact absurd htype.symm n.type_ne_leaf

/-- A response is right if the node is a leaf with another key. -/
def SawOther (w : World sizes) (t : Nat) (k : List UInt8) (p : NodePtr) (r : OlcDb.Response) : Prop :=
  ∀ {k' v'}, w.db.mem.deref p = some (.leaf k' v') → k ≠ k' → w.Saw t r

theorem lasting_sawOther (t : Nat) (k : List UInt8) (p : NodePtr) (r : OlcDb.Response) :
    Lasting K t fun w : World sizes => w.Known p ∧ w.SawOther t k p r := by
  intro w w' hinv hinv' hkeeps ⟨hp, hsaw⟩
  obtain ⟨hp', -, hkeep⟩ := hkeeps.known hp
  exact ⟨hp', fun hleaf hne => hkeeps.saw (hsaw (hp.leaf_of hkeep hleaf) hne)⟩

theorem lasting_looks (t : Nat) (k : List UInt8) (parentCs : CriticalSection) (sl : Slot)
    (slot : Radix.Slot NodePtr UInt8) (node : NodePtr) (depth : Nat) (rem : κ) :
    Lasting K t fun w : World sizes => w.Looks t k parentCs sl slot node depth rem := by
  intro w w' hinv hinv' hkeeps h
  have hlive : w'.Live t parentCs → w.Live t parentCs := (hkeeps.lock h.begun.atLeast).2
  have hsite : w'.Live t parentCs → SameSite w.tree w'.tree (graphSite slot) := fun hl =>
    h.site ▸ hkeeps.site (hlive hl)
  have hstart : slot.start w'.path = slot.start w.path := by
    cases slot with
    | root => rfl
    | child p b =>
      rw [Radix.Slot.start_child, Radix.Slot.start_child, (hkeeps.known (h.holder p b rfl)).2.1]
  exact {
    site := h.site
    begun := lasting_begun parentCs hinv hinv' hkeeps h.begun
    known := (hkeeps.known h.known).1
    holder := fun p b hslot => (hkeeps.known (h.holder p b hslot)).1
    below := fun hleaf => by
      rw [hstart]
      exact h.below (h.known.leaf_of (hkeeps.known h.known).2.2 hleaf)
    slotAt := fun hl => (h.slotAt (hlive hl)).of_sameSite (hsite hl)
    read := fun hl => Tree.read_of_sameSite (hsite hl) (h.read (hlive hl))
    start := by rw [hstart]; exact h.start
    depth_eq := by rw [hstart]; exact h.depth_eq
    rem_drop := h.rem_drop }

/-- While the section is valid or upgraded, the loop is where `At` says. -/
theorem Looks.at (h : w.Looks t k parentCs sl slot node depth rem) (hlive : w.Live t parentCs) :
    w.tree.At w.path k sl slot depth rem :=
  ⟨h.slotAt hlive, h.start, h.depth_eq, h.rem_drop⟩

/-- The loop has begun a section of the inner node there too.  It knows `R` of the node, which does
    not depend on the prefix, while this section is valid or upgraded, and `P` while that of the
    place is so too. -/
structure AtNode (w : World sizes) (t : Nat) (k : List UInt8) (parentCs : CriticalSection) (sl : Slot)
    (slot : Radix.Slot NodePtr UInt8) (node : NodePtr) (depth : Nat) (rem : κ)
    (nodeCs : CriticalSection) (P R : INode NodePtr → Prop) : Prop
    extends Looks w t k parentCs sl slot node depth rem where
  nodeSite : nodeCs.lock = .node node.addr
  nodeBegun : w.Begun nodeCs
  kids : w.Live t nodeCs → ∃ n, w.tree.deref node = some (.inode n) ∧ R n
  sure : w.Live t parentCs → w.Live t nodeCs → ∀ n, w.tree.deref node = some (.inode n) → P n
  ofKids : ∀ {n n' : INode NodePtr}, n'.childrenCount = n.childrenCount → n'.layout = n.layout →
    R n → R n'

/-- An inner node keeps its children while its section is valid or upgraded. -/
theorem Keeps.inode (h : Keeps t w w') (hsite : nodeCs.lock = .node node.addr)
    (hlive : w.Live t nodeCs) {n : INode NodePtr} (hn : w.tree.deref node = some (.inode n)) :
    ∃ n', w'.tree.deref node = some (.inode n') ∧ n'.childrenCount = n.childrenCount ∧
      n'.layout = n.layout := by
  obtain ⟨hheap, htype⟩ := Tree.deref_eq_some_iff.mp hn
  have hsame : SameSite w.tree w'.tree (.node node.addr) := by
    rw [← hsite]
    exact h.site hlive
  obtain ⟨body', hbody', hkids⟩ := hsame hheap
  obtain ⟨n', rfl, hcount, hlayout⟩ := hkids.inode
  exact ⟨n', Tree.deref_eq_some_iff.mpr ⟨hbody', hkids.type_eq.trans htype⟩, hcount, hlayout⟩

theorem lasting_atNode (t : Nat) (k : List UInt8) (parentCs : CriticalSection) (sl : Slot)
    (slot : Radix.Slot NodePtr UInt8) (node : NodePtr) (depth : Nat) (rem : κ)
    (nodeCs : CriticalSection) (P R : INode NodePtr → Prop) :
    Lasting K t fun w : World sizes => w.AtNode t k parentCs sl slot node depth rem nodeCs P R := by
  intro w w' hinv hinv' hkeeps h
  have hkids : w'.Live t nodeCs → ∃ n n', w.Live t nodeCs ∧ w.tree.deref node = some (.inode n) ∧
      R n ∧ w'.tree.deref node = some (.inode n') ∧ n'.childrenCount = n.childrenCount ∧
      n'.layout = n.layout := by
    intro hnode'
    have hnode : w.Live t nodeCs := (hkeeps.lock h.nodeBegun.atLeast).2 hnode'
    obtain ⟨n, hn, hR⟩ := h.kids hnode
    obtain ⟨n', hn', hcount, hlayout⟩ := hkeeps.inode h.nodeSite hnode hn
    exact ⟨n, n', hnode, hn, hR, hn', hcount, hlayout⟩
  refine { lasting_looks t k parentCs sl slot node depth rem hinv hinv' hkeeps h.toLooks with
    nodeSite := h.nodeSite
    nodeBegun := lasting_begun nodeCs hinv hinv' hkeeps h.nodeBegun
    kids := fun hnode' => ?_
    sure := fun hparent' hnode' n1 hn1 => ?_
    ofKids := h.ofKids }
  · obtain ⟨n, n', -, -, hR, hn', hcount, hlayout⟩ := hkids hnode'
    exact ⟨n', hn', h.ofKids hcount hlayout hR⟩
  · obtain ⟨n, n', hnode, hn, -, hn', hcount, hlayout⟩ := hkids hnode'
    have hparent : w.Live t parentCs := (hkeeps.lock h.begun.atLeast).2 hparent'
    obtain ⟨n2, hn2, hpre⟩ := (hkeeps.keyPrefix hparent h.site (h.read hparent)).1
      (Tree.deref_eq_some_iff.mp hn).1
    cases hn1.symm.trans hn'
    cases (Tree.deref_eq_some_iff.mp hn').1.symm.trans hn2
    -- Neither the children nor the prefix have changed.
    have heq : n1 = n := by
      rw [INode.eq_of_kids hcount hlayout, hpre]
    rw [heq]
    exact h.sure hparent hnode n hn

/-- A loop that begins a section of the inner node that it has read a pointer to. -/
theorem Looks.atNode (h : w.Looks t k parentCs sl slot node depth rem) (hinv : Inv K w)
    (hsite : nodeCs.lock = .node node.addr) (hbegun : w.Begun nodeCs) (htype : node.type ≠ .leaf) :
    w.AtNode t k parentCs sl slot node depth rem nodeCs (fun _ => True) fun _ => True :=
  { h with
    nodeSite := hsite
    nodeBegun := hbegun
    kids := fun hlive => by
      obtain ⟨body, hbody⟩ := hinv.linked_of_known h.known (hsite ▸ hlive.ne_obsolete)
      cases body with
      | leaf k v => exact absurd (Tree.deref_eq_some_iff.mp hbody).2.symm htype
      | inode n => exact ⟨n, hbody, trivial⟩
    sure := fun _ _ _ _ => trivial
    ofKids := fun _ _ _ => trivial }

/-- A node that is not obsolete is in memory as it is in the tree, but for the prefix. -/
theorem Inv.mem_of_live (hinv : Inv K w) (hsite : nodeCs.lock = .node node.addr)
    (hlive : w.Live t nodeCs) {n m : INode NodePtr} (hn : w.tree.deref node = some (.inode n))
    (hm : w.db.mem.deref node = some (.inode m)) :
    m.childrenCount = n.childrenCount ∧ m.layout = n.layout := by
  have hdoomed : w.doomed node.addr = none := by
    by_contra hcon
    exact hlive.ne_obsolete (hsite ▸ (hinv.obsolete _).mpr hcon)
  obtain ⟨body', hbody', -, hkids⟩ := hinv.body (Tree.deref_eq_some_iff.mp hn).1
  obtain rfl : body' = .inode m := by
    rw [(Tree.deref_eq_some_iff.mp hm).1, Option.some_inj] at hbody'
    exact hbody'.symm
  exact hkids hdoomed

/-- What a thread reads of the children of a node. -/
theorem AtNode.readKids {β : Type} {f : INode NodePtr → β} {r : β} {m : INode NodePtr}
    (h : w.AtNode t k parentCs sl slot node depth rem nodeCs P R) (hinv : Inv K w)
    (hm : w.db.mem.deref node = some (.inode m)) (hr : w.Live t nodeCs → f m = r)
    (hf : ∀ {n n' : INode NodePtr}, n'.childrenCount = n.childrenCount → n'.layout = n.layout →
      f n' = f n) :
    w.AtNode t k parentCs sl slot node depth rem nodeCs P fun n => R n ∧ f n = r :=
  { h with
    kids := fun hlive => by
      obtain ⟨n, hn, hR⟩ := h.kids hlive
      obtain ⟨hcount, hlayout⟩ := hinv.mem_of_live h.nodeSite hlive hn hm
      exact ⟨n, hn, hR, (hf hcount hlayout).symm.trans (hr hlive)⟩
    ofKids := fun hcount hlayout hR =>
      ⟨h.ofKids hcount hlayout hR.1, (hf hcount hlayout).trans hR.2⟩ }

/-- What a thread that has no lock reads of the prefix of a node. -/
theorem AtNode.readPrefix {β : Type} {f : INode NodePtr → β} {r : β} {m : INode NodePtr}
    (h : w.AtNode t k parentCs sl slot node depth rem nodeCs P R) (hinv : Inv K w)
    (hm : w.db.mem.deref node = some (.inode m))
    (hvalid : w.Live t parentCs → w.db.Valid parentCs)
    (hr : w.Live t parentCs → w.Live t nodeCs → f m = r) :
    w.AtNode t k parentCs sl slot node depth rem nodeCs (fun n => P n ∧ f n = r) R :=
  { h with
    sure := fun hparent hnode n hn => by
      obtain ⟨hcount, hlayout⟩ := hinv.mem_of_live h.nodeSite hnode hn hm
      have hpre := hinv.clean (hvalid hparent) h.site (h.read hparent)
        (Tree.deref_eq_some_iff.mp hn).1 (Tree.deref_eq_some_iff.mp hm).1
      have heq : m = n := by
        rw [INode.eq_of_kids hcount hlayout, hpre]
      exact ⟨h.sure hparent hnode n hn, heq ▸ hr hparent hnode⟩ }

end World

end Unodb
