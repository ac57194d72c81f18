import Unodb.Util.Atomic
import Unodb.Db.Clear
import Unodb.Olc.Deadlock
import Unodb.Olc.Getting
import Unodb.Olc.Inserting
import Unodb.Olc.Reading
import Unodb.Olc.Removing
import Unodb.Olc.System

/-!
# The map that threads on an `olc_db` share

Whatever order the actions of the threads come in, the operations of an `olc_db` with 64-bit keys
are those of an atomic map: every update takes effect at one instant between its call and its
return, and what is found was stored at one.
-/

namespace Unodb

open World

namespace OlcDb

/-! ## 1. Attempts -/

/-- What the caller of an operation asks for. -/
def Operation.request {κ : Type} [ArtKey κ] : Operation κ → Request
  | .get k => .get (ArtKey.getKeyView k)
  | .insert k v _ => .insert (ArtKey.getKeyView k) v
  | .remove k => .remove (ArtKey.getKeyView k)
  | .iter _ => .scan

/-- An operation as its caller begins it: with no leaf yet, and no removal if there are to be
    none. -/
def Operation.Begins {κ : Type} (only : Prop) : Operation κ → Prop
  | .insert _ _ cachedLeaf => cachedLeaf = none
  | .remove _ => ¬ only
  | _ => True

/-- What a thread has when an attempt begins. -/
def Operation.Ready {κ : Type} [ArtKey κ] (t : Nat) (w : World sizes) : Operation κ → Prop
  | .insert k v cachedLeaf => (∀ leaf, cachedLeaf = some leaf → leaf.type = .leaf) ∧
      w.Has t (.begin (.insert (ArtKey.getKeyView k) v) (.leaf (ArtKey.getKeyView k) v) cachedLeaf)
  | op => w.Has t { request := op.request }

theorem Operation.Ready.frame {κ : Type} [ArtKey κ] {t : Nat} {w w' : World sizes} {op : Operation κ}
    (h : op.Ready t w) (hframe : Frame t w w') : op.Ready t w' := by
  cases op with
  | insert k v cachedLeaf => exact ⟨h.1, h.2.frame hframe⟩
  | get k => exact Has.frame h hframe
  | remove k => exact Has.frame h hframe
  | iter op => exact Has.frame h hframe

theorem Operation.Ready.did {κ : Type} [ArtKey κ] {t : Nat} {w : World sizes} {op : Operation κ}
    (h : op.Ready t w) : (w.job t).did = false := by
  cases op with
  | insert k v cachedLeaf => exact h.2.did
  | get k => exact Has.did h
  | remove k => exact Has.did h
  | iter op => exact Has.did h

/-- The response may be returned to the request: a removal at work can hide a key from `get`, and
    nothing is said of an iterator. -/
def MayReturn (t : Nat) (request : Request) (r : Response) (w : World sizes) : Prop :=
  (w.Has t { request, did := true } ∧ r = .updated true) ∨
    (w.Has t { request } ∧ (w.Saw t r ∨ request = .scan ∨
      (∃ k, request = .get k) ∧ r = .found none ∧ ¬ w.insertsOnly))

/-- How an attempt at an operation leaves its thread. -/
def Settles {κ : Type} [ArtKey κ] (t : Nat) (request : Request) :
    OlcIterator × Progress (Operation κ) → World sizes → Prop
  | (_, .done r), w => MayReturn t request r w
  | (_, .again op), w => op.request = request ∧ op.Ready t w

/-- What an exception or a failed assertion leaves. -/
def Throws (t : Nat) (e : Fault) (w : World sizes) : Prop := ∃ kit : Kit, w.Has t kit ∧ kit.MayThrow e

variable {t : Nat} {w w' : World sizes}

theorem goodKeys_u64Views : GoodKeys Db.u64Views where
  prefixFree := Db.u64Views_prefixFree
  spaced _ hS := Radix.Spaced.of_length_le fun _ hk => Nat.le_of_eq (hS hk)

theorem getKeyView_mem (k : U64Key) : ArtKey.getKeyView k ∈ Db.u64Views :=
  U64Key.getKeyView_length k

theorem MayReturn.frame {request : Request} {r : Response} (h : MayReturn t request r w)
    (hframe : Frame t w w') : MayReturn t request r w' := by
  rcases h with ⟨hhas, hr⟩ | ⟨hhas, hright⟩
  · exact .inl ⟨hhas.frame hframe, hr⟩
  · refine .inr ⟨hhas.frame hframe, ?_⟩
    rcases hright with hsaw | hscan | ⟨hget, hr, honly⟩
    · exact .inl (hframe.keeps.saw hsaw)
    · exact .inr (.inl hscan)
    · refine .inr (.inr ⟨hget, hr, ?_⟩)
      rwa [hframe.insertsOnly]

theorem safe_return {request : Request} {it : OlcIterator} {r : Response}
    (hinv : Inv Db.u64Views w) (h : MayReturn t request r w) :
    (olcRules Db.u64Views False).Safe t (Settles (κ := U64Key) t request) (Throws t)
      (pure (it, .done r) : OlcM sizes _) w :=
  fun _ hlater _ => later_steady (K := Db.u64Views) (F := MayReturn t request r)
    (fun _ _ _ _ hframe h => h.frame hframe) hlater hinv h

theorem safe_again {request : Request} {it : OlcIterator} {op : Operation U64Key}
    (hinv : Inv Db.u64Views w) (hop : op.request = request) (h : op.Ready t w) :
    (olcRules Db.u64Views False).Safe t (Settles t request) (Throws t)
      (pure (it, .again op) : OlcM sizes _) w :=
  fun _ hlater _ => ⟨hop, later_steady (K := Db.u64Views) (F := fun w => op.Ready t w)
    (fun _ _ _ _ hframe h => h.frame hframe) hlater hinv h⟩

/-- An attempt of any thread may run among the others. -/
theorem safe_attempt {fuel : Nat} {it : OlcIterator} (op : Operation U64Key)
    (hinv : Inv Db.u64Views w) (hready : op.Ready t w) :
    (olcRules Db.u64Views False).Safe t (Settles t op.request) (Throws t)
      (op.attempt t fuel it) w := by
  have hgood := goodKeys_u64Views
  cases op with
  | get k =>
    have hlen : ∀ k' ∈ Db.u64Views, k'.length ≤ (ArtKey.getKeyView k).length := fun k' hk' =>
      Nat.le_of_eq (hk'.trans (getKeyView_mem k).symm)
    refine Meets.bind (F := fun _ => True) (Meets.tryGet hgood (getKeyView_mem k) hlen U64Key.total)
      (fun value w hinv hw => ?_) hinv hready trivial
    cases value with
    | none => exact safe_again hinv rfl hw
    | some value =>
      cases value with
      | none =>
        refine safe_return hinv (.inr ⟨hw.1, ?_⟩)
        -- A removal that collapses a node may have hidden the key.
        by_cases honly : w.insertsOnly
        · exact .inl (hw.2 honly)
        · exact .inr (.inr ⟨⟨_, rfl⟩, rfl, honly⟩)
      | some v => exact safe_return hinv (.inr ⟨hw.1, .inl hw.2⟩)
  | insert k v cachedLeaf =>
    refine Meets.bind (F := fun _ => True)
      (Meets.tryInsert hgood (getKeyView_mem k) hready.1 U64Key.total)
      (fun attempt w hinv hw => ?_) hinv hready.2 trivial
    cases attempt with
    | restart cachedLeaf => exact safe_again hinv rfl hw
    | done changed =>
      cases changed with
      | true => exact safe_return hinv (.inl ⟨hw, rfl⟩)
      | false => exact safe_return hinv (.inr ⟨hw.1, .inl hw.2⟩)
  | remove k =>
    refine Meets.bind (F := fun _ => True) (Meets.tryRemove hgood (getKeyView_mem k) U64Key.total)
      (fun attempt w hinv hw => ?_) hinv hready trivial
    cases attempt with
    | restart _ => exact safe_again hinv rfl hw
    | done changed =>
      cases changed with
      | true => exact safe_return hinv (.inl ⟨hw, rfl⟩)
      | false => exact safe_return hinv (.inr ⟨hw.1, .inl hw.2⟩)
  | iter op =>
    have hreads : (olcRules Db.u64Views False).Safe t (fun _ w => w.Has t { request := .scan })
        (fun _ w => w.Has t { request := .scan }) (op.attempt fuel it) w :=
      .of_reads (reads_iterAttempt op) id (fun _ _ => trivial) (fun _ _ => trivial)
        (fun w => .refl t w) (fun _ hframe _ hw => hw.frame hframe) hinv hready
    refine Discipline.Safe.bind (hreads.mono_of_inv (fun r w hinv hw => ?_) fun e w _ hw =>
      ⟨{ request := .scan }, hw, .inr trivial, fun _ => rfl⟩)
    obtain ⟨it, progress⟩ := r
    cases progress with
    | done r => exact safe_return hinv (.inr ⟨hw, .inr (.inl rfl)⟩)
    | again op => exact safe_again hinv rfl hw

end OlcDb

open OlcDb

/-! ## 2. The atomic map -/

/-- Pairs of a key and its value. -/
abbrev Bindings := Set (List UInt8 × List UInt8)

/-- What a caller sees in a step of the system, if anything. -/
abbrev MapEvent := Option (CallEvent Nat Request Response Fault)

abbrev WatchedMap := Shared Bindings Nat (Atomic.Watched Request Response)

/-- The operations of a map.  If keys may be removed, nothing is said of a key that `get` does not
    find, and nothing is said of what an iterator finds. -/
def mapSpec (only : Prop) : Request → Response → Bindings → Bindings → Prop
  | .insert k v, .updated true, m, m' => (∀ v', (k, v') ∉ m) ∧ m' = insert (k, v) m
  | .insert k _, .updated false, m, m' => (∃ v, (k, v) ∈ m) ∧ m' = m
  | .remove k, .updated true, m, m' => (∃ v, (k, v) ∈ m) ∧ m' = {b ∈ m | b.1 ≠ k}
  | .remove k, .updated false, m, m' => (∀ v, (k, v) ∉ m) ∧ m' = m
  | .get k, .found (some v), m, m' => (k, v) ∈ m ∧ m' = m
  | .get k, .found none, m, m' => (only → ∀ v, (k, v) ∉ m) ∧ m' = m
  | .scan, _, m, m' => m' = m
  | _, _, _, _ => False

/-- The map that a tree stores. -/
def Tree.bindings (t : Tree) : Bindings := {b | t.Binds b.1 b.2}

/-- The leaves that child pointers lead to from the root. -/
def OlcDb.bindings (db : OlcDb sizes) : Bindings :=
  {b | ∃ p, db.Reachable p ∧ db.mem.deref p = some (.leaf b.1 b.2)}

open Classical in
/-- How many values a map has for the key. -/
noncomputable def bound (k : List UInt8) (m : Bindings) : Nat := if ∃ v, (k, v) ∈ m then 1 else 0

/-- An insertion of the key that returns true. -/
def inserts (k : List UInt8) : Request → Response → Bool
  | .insert k' _, .updated true => k' = k
  | _, _ => false

/-- A removal of the key that returns true. -/
def removes (k : List UInt8) : Request → Response → Bool
  | .remove k', .updated true => k' = k
  | _, _ => false

/-- An insertion of the key that returns. -/
def tries (k : List UInt8) : Request → Response → Bool
  | .insert k' _, .updated _ => k' = k
  | _, _ => false

section Counting

variable {only : Prop} {k : List UInt8} {q : Request} {r : Response} {m m' : Bindings}

theorem bound_pos_iff : 0 < bound k m ↔ ∃ v, (k, v) ∈ m := by
  unfold bound
  split
  · rename_i h
    exact iff_of_true Nat.one_pos h
  · rename_i h
    exact iff_of_false (Nat.lt_irrefl 0) h

theorem bound_le_one (k : List UInt8) (m : Bindings) : bound k m ≤ 1 := by
  unfold bound
  split
  · exact Nat.le_refl 1
  · exact Nat.zero_le 1

theorem bound_congr (h : (∃ v, (k, v) ∈ m') ↔ ∃ v, (k, v) ∈ m) : bound k m' = bound k m := by
  by_cases hm : ∃ v, (k, v) ∈ m
  · rw [bound, bound, if_pos (h.mpr hm), if_pos hm]
  · rw [bound, bound, if_neg (mt h.mp hm), if_neg hm]

theorem bound_insert {v : List UInt8} (hnew : ∀ v', (k, v') ∉ m) :
    bound k (insert (k, v) m) = bound k m + 1 := by
  have hzero : ¬ ∃ v', (k, v') ∈ m := fun ⟨v', hv'⟩ => hnew v' hv'
  rw [bound, bound, if_neg hzero, if_pos ⟨v, Set.mem_insert _ _⟩]

theorem bound_remove {v : List UInt8} (hv : (k, v) ∈ m) :
    bound k {b ∈ m | b.1 ≠ k} + 1 = bound k m := by
  have hnone : ¬ ∃ v', (k, v') ∈ {b ∈ m | b.1 ≠ k} := fun ⟨_, hv'⟩ => hv'.2 rfl
  rw [bound, bound, if_neg hnone, if_pos ⟨v, hv⟩]

/-- An update changes the number of bindings of its key as its response says. -/
theorem bound_of_spec (h : mapSpec only q r m m') :
    bound k m' + (removes k q r).toNat = bound k m + (inserts k q r).toNat := by
  cases q with
  | insert k' v =>
    rcases r with _ | (_ | _) | _ | _
    · exact h.elim
    · rw [h.2]
      rfl
    · obtain ⟨hnew, rfl⟩ := h
      by_cases hk : k' = k
      · subst hk
        have hone : (inserts k' (.insert k' v) (.updated true)).toNat = 1 := by simp [inserts]
        rw [bound_insert hnew, hone]
        rfl
      · have hzero : (inserts k (.insert k' v) (.updated true)).toNat = 0 := by simp [inserts, hk]
        rw [hzero]
        refine bound_congr (exists_congr fun v' => Set.mem_insert_iff.trans (or_iff_right ?_))
        rintro heq
        exact hk (Prod.ext_iff.mp heq).1.symm
    · exact h.elim
    · exact h.elim
  | remove k' =>
    rcases r with _ | (_ | _) | _ | _
    · exact h.elim
    · rw [h.2]
      rfl
    · obtain ⟨⟨v, hv⟩, rfl⟩ := h
      by_cases hk : k' = k
      · subst hk
        have hone : (removes k' (.remove k') (.updated true)).toNat = 1 := by simp [removes]
        rw [hone, bound_remove hv]
        rfl
      · have hzero : (removes k (.remove k') (.updated true)).toNat = 0 := by simp [removes, hk]
        rw [hzero]
        exact bound_congr (exists_congr fun v' => and_iff_left fun heq => hk heq.symm)
    · exact h.elim
    · exact h.elim
  | get k' =>
    rcases r with (_ | v) | _ | _ | _
    · rw [h.2]
      rfl
    · rw [h.2]
      rfl
    · exact h.elim
    · exact h.elim
    · exact h.elim
  | scan =>
    obtain rfl : m' = m := h
    rfl

/-- An insertion that returns false finds the key. -/
theorem tries_of_spec (h : mapSpec only q r m m') (htries : tries k q r = true) :
    inserts k q r = true ∨ 0 < bound k m := by
  cases q with
  | insert k' v =>
    rcases r with _ | (_ | _) | _ | _
    · cases htries
    · obtain rfl : k' = k := of_decide_eq_true htries
      exact .inr (bound_pos_iff.mpr h.1)
    · exact .inl htries
    · cases htries
    · cases htries
  | remove k' => cases htries
  | get k' => cases htries
  | scan => cases htries

end Counting

/-- Where a thread is that has a job. -/
def Job.status (job : Job) : Atomic.Watched Request Response :=
  if job.did then .done job.request (.updated true) else .pending job.request job.saw

namespace World

variable {only : Prop} {t : Nat} {w w' : World sizes} {tree tree' : Tree} {q : Request} {r : Response}

theorem bindings_eq (h : ∀ k v, tree'.Binds k v ↔ tree.Binds k v) :
    tree'.bindings = tree.bindings :=
  Set.ext fun b => h b.1 b.2

theorem mapSpec_of_effect (h : Effect tree tree' q) :
    mapSpec only q (.updated true) tree.bindings tree'.bindings := by
  cases q with
  | insert k v =>
    refine ⟨h.1, Set.ext fun b => (h.2 b.1 b.2).trans ?_⟩
    rw [Set.mem_insert_iff, Prod.ext_iff]
    rfl
  | remove k => exact ⟨h.1, Set.ext fun b => (h.2 b.1 b.2).trans and_comm⟩
  | get k => exact h.elim
  | scan => exact h.elim

theorem mapSpec_of_idle (h : Idle tree q r) : mapSpec only q r tree.bindings tree.bindings := by
  cases q with
  | insert k v =>
    rcases r with _ | (_ | _) | _ | _
    · exact h.elim
    · exact ⟨h, rfl⟩
    · exact h.elim
    · exact h.elim
    · exact h.elim
  | remove k =>
    rcases r with _ | (_ | _) | _ | _
    · exact h.elim
    · exact ⟨h, rfl⟩
    · exact h.elim
    · exact h.elim
    · exact h.elim
  | get k =>
    rcases r with (_ | v) | _ | _ | _
    · exact ⟨fun _ => h, rfl⟩
    · exact ⟨h, rfl⟩
    · exact h.elim
    · exact h.elim
    · exact h.elim
  | scan => exact h.elim

theorem JobStep.request (h : JobStep t w w') : (w'.job t).request = (w.job t).request := by
  cases h with
  | quiet hjob => rw [hjob]
  | saw r hjob => rw [hjob]
  | did _ hjob => rw [hjob]

/-- An action of a thread is seen as one on the map, or as none. -/
theorem JobStep.watch (only : Prop) {m : WatchedMap}
    (h : JobStep t w w') (hobject : m.object = w.tree.bindings)
    (hcaller : m.caller t = (w.job t).status) :
    ∃ os : List MapEvent,
      Run (Atomic.Watch (mapSpec only)) m os (m.put w'.tree.bindings t (w'.job t).status) ∧
      os.reduceOption = [] := by
  cases h with
  | quiet hjob hbinds =>
    rw [hjob, bindings_eq hbinds, m.put_eq _ t _ hobject.symm hcaller.symm]
    exact ⟨[], .nil m, rfl⟩
  | saw r hjob htree hidle =>
    rw [hjob, htree, ← hobject]
    -- After the update of the thread its call is seen as done, whatever else it finds.
    by_cases hdid : (w.job t).did
    · rw [m.put_eq _ t _ rfl]
      · exact ⟨[], .nil m, rfl⟩
      · rw [hcaller, Job.status, Job.status, if_pos hdid, if_pos hdid]
    · rw [Job.status, if_neg hdid] at hcaller ⊢
      refine ⟨[none], .cons (.saw t r hcaller ?_) (.nil _), rfl⟩
      rw [hobject]
      exact mapSpec_of_idle hidle
  | did hdid hjob heffect =>
    have hpending : m.caller t = .pending (w.job t).request (w.job t).saw := by
      rw [hcaller, Job.status, hdid]
      rfl
    refine ⟨[none], ?_, rfl⟩
    have hspec : mapSpec only (w.job t).request (.updated true) m.object w'.tree.bindings := by
      rw [hobject]
      exact mapSpec_of_effect heffect
    rw [hjob]
    exact .cons (.effect t _ _ hpending hspec) (.nil _)

/-! What the concrete state stores when no obsolete node is linked. -/

section Stored

variable {K : Set (List UInt8)} {slot : Radix.Slot NodePtr UInt8} {p : NodePtr} {k v : List UInt8}

theorem Inv.reachable_of_read (h : Inv K w)
    (hlive : ∀ {a}, w.tree.heap a ≠ none → w.doomed a = none)
    (hread : w.tree.graph.read slot = some p) : w.db.Reachable p := by
  -- By induction on the string that leads to the node: that of its parent is shorter.
  obtain ⟨len, hlen⟩ : ∃ len, (w.path p).length = len := ⟨_, rfl⟩
  induction len using Nat.strongRecOn generalizing slot p with
  | ind len ih =>
    cases slot with
    | root => exact .root (h.root.trans hread) id
    | child a b =>
      obtain ⟨pre, c, hnode, -⟩ := Radix.read_child_iff.mp hread
      obtain ⟨n, ha⟩ := Tree.inode_of_inner hnode
      obtain ⟨up, hup⟩ := h.tree.graph.pointed hnode
      have hlt := h.tree.graph.path_lt_of_child hread
      rw [Tree.graph_read_child ha] at hread
      obtain ⟨hheap, htype⟩ := Tree.deref_eq_some_iff.mp ha
      obtain ⟨body, hbody, -, hsame⟩ := h.body hheap
      have hkids := hsame (hlive (by rw [hheap]; simp))
      obtain ⟨n', rfl, hcount, hlayout⟩ := hkids.inode
      have hderef : w.db.mem.deref a = some (.inode n') :=
        Tree.deref_eq_some_iff.mpr ⟨hbody, hkids.type_eq.trans htype⟩
      have hb : n'.child b = some p := by rw [INode.child_of_kids hcount hlayout, hread]
      exact .child (ih _ (hlen ▸ hlt) hup rfl) hderef hb id

theorem Inv.tree_of_reachable (h : Inv K w) (hp : w.db.Reachable p) :
    w.tree.heap p.addr ≠ none := by
  obtain ⟨slot, hread⟩ := h.read_of_avoiding hp
  obtain ⟨body, hbody⟩ := h.tree_of_read hread
  rw [(Tree.deref_eq_some_iff.mp hbody).1]
  exact Option.some_ne_none body

theorem Inv.doomed_of_retired (h : Inv K w) (hp : (t, p) ∈ w.db.retired) :
    w.doomed p.addr ≠ none := by
  obtain ⟨guard, hguard⟩ := h.retired hp
  rw [hguard]
  exact Option.some_ne_none _

/-- The leaves that child pointers lead to from the root are those of the tree. -/
theorem Inv.stores_iff (h : Inv K w) (hlive : ∀ {a}, w.tree.heap a ≠ none → w.doomed a = none) :
    (∃ p, w.db.Reachable p ∧ w.db.mem.deref p = some (.leaf k v)) ↔ w.tree.Binds k v := by
  constructor
  · rintro ⟨p, hp, hleaf⟩
    exact ⟨p.addr, (Tree.deref_eq_some_iff.mp (h.leaf_of_mem hleaf (h.tree_of_reachable hp))).1⟩
  · rintro ⟨a, ha⟩
    have hnode : w.tree.graph.node ⟨a, .leaf⟩ = some (.leaf k v) :=
      Tree.graph_node_leaf_iff.mpr (Tree.deref_eq_some_iff.mpr ⟨ha, rfl⟩)
    obtain ⟨slot, hread⟩ := h.tree.graph.pointed hnode
    obtain ⟨body, hbody, hwithin, -⟩ := h.body ha
    obtain rfl := hwithin.leaf
    exact ⟨_, h.reachable_of_read hlive hread, Tree.deref_eq_some_iff.mpr ⟨hbody, rfl⟩⟩

end Stored

/-- The world in which the thread has been asked for something. -/
def asked (w : World sizes) (t : Nat) (q : Request) : World sizes := w.setJob t ⟨q, false, ∅⟩

theorem Inv.asked {K : Set (List UInt8)} (h : Inv K w) (t : Nat)
    (hq : w.insertsOnly → ∀ k, q ≠ .remove k) : Inv K (w.asked t q) :=
  { h with
    not_removes := by
      rintro honly u ⟨k, hk⟩
      by_cases hu : u = t
      · rw [hu, World.asked, setJob_self] at hk
        exact hq honly k hk
      · rw [World.asked, setJob_of_ne w hu] at hk
        exact h.not_removes honly u ⟨k, hk⟩ }

theorem Has.asked {kit : Kit} (h : w.Has t kit) (q : Request) :
    (w.asked t q).Has t { kit with request := q, did := false } :=
  { h with
    request := by rw [World.asked, setJob_self]
    did := by rw [World.asked, setJob_self] }

theorem Frame.asked {u : Nat} (hu : u ≠ t) (w : World sizes) (q : Request) : Frame u w (w.asked t q) :=
  { Frame.refl u w with job := setJob_of_ne w hu _ }

/-- The same request once more. -/
theorem Ready.asked {op : Operation U64Key} (h : op.Ready t w) :
    op.Ready t (w.asked t op.request) := by
  cases op with
  | insert k v cachedLeaf => exact ⟨h.1, h.2.asked _⟩
  | get k => exact Has.asked h _
  | remove k => exact Has.asked h _
  | iter op => exact Has.asked h _

end World

namespace OlcSystem

/-! ## 3. Runs -/

variable {only : Prop} {t u : Nat} {w w' : World sizes} {s s' : OlcSystem sizes U64Key}
  {m : WatchedMap}
  {thread : OlcThread sizes U64Key} {c : Atomic.Watched Request Response}

/-- A step with what the callers see of it. -/
inductive CallStep (only : Prop) (s : OlcSystem sizes U64Key) :
    MapEvent → OlcSystem sizes U64Key → Prop where
  | call {t s' op p} : Moves t s s' → (s.threads t).running = none →
      (s'.threads t).running = some (op, p) → op.Begins only →
      CallStep only s (some (.call t op.request)) s'
  | go {t s' op} {β : Type} {f : Choice → OlcDb sizes → Option (β × OlcDb sizes)} {k} :
      Moves t s s' → (s.threads t).running = some (op, .atomic f k) → CallStep only s none s'
  | restart {t s' op it op'} : Moves t s s' →
      (s.threads t).running = some (op, .ret (it, .again op')) →
      CallStep only s (some (.restart t)) s'
  | ret {t s' op it r} : Moves t s s' → (s.threads t).running = some (op, .ret (it, .done r)) →
      CallStep only s (some (.ret t op.request r)) s'
  | raise {t s' op e} : Moves t s s' → (s.threads t).running = some (op, .throw e) →
      CallStep only s (some (.raise t e)) s'

/-- A thread among the others. -/
inductive ThreadIn (t : Nat) (w : World sizes) : OlcThread sizes U64Key → Atomic.Watched Request Response →
    Prop where
  | idle {it : OlcIterator} {q : Request} {did : Bool} : w.Has t { request := q, did } →
      ThreadIn t w ⟨it, none⟩ .idle
  | running {it : OlcIterator} {op p} : op.request = (w.job t).request →
      (olcRules Db.u64Views False).Safe t (Settles t op.request) (Throws t) p w →
      ThreadIn t w ⟨it, some (op, p)⟩ (w.job t).status

theorem ThreadIn.frame (h : ThreadIn t w thread c) (hframe : Frame t w w')
    (hinv : Inv Db.u64Views w') : ThreadIn t w' thread c := by
  cases h with
  | idle hhas => exact .idle (hhas.frame hframe)
  | running hop hsafe =>
    rw [← hframe.job] at hop ⊢
    exact .running hop (hsafe.other id hframe hinv)

/-- The world behind a state of the system, and the map that its callers see. -/
structure Sees (only : Prop) (s : OlcSystem sizes U64Key) (w : World sizes) (m : WatchedMap) : Prop where
  db : w.db = s.db
  inv : Inv Db.u64Views w
  only : w.insertsOnly = only
  object : m.object = w.tree.bindings
  caller : ∀ t, ThreadIn t w (s.threads t) (m.caller t)

/-- One thread has acted. -/
theorem Sees.acted {db : OlcDb sizes} (h : Sees only s w m) (hdb : w'.db = db) (hinv : Inv Db.u64Views w')
    (honly : w'.insertsOnly = w.insertsOnly) (hframe : ∀ {u}, u ≠ t → Frame u w w')
    (ht : ThreadIn t w' thread c) :
    Sees only { s.setThread t thread with db } w' (m.put w'.tree.bindings t c) where
  db := hdb
  inv := hinv
  only := honly.trans h.only
  object := rfl
  caller u := by
    by_cases hu : u = t
    · subst hu
      rw [Shared.put_self]
      show ThreadIn u w' ((s.setThread u thread).threads u) c
      rwa [setThread_self]
    · rw [Shared.put_of_ne _ _ _ _ hu]
      show ThreadIn u w' ((s.setThread t thread).threads u) (m.caller u)
      rw [setThread_of_ne s thread hu]
      exact (h.caller u).frame (hframe hu) hinv

/-- What is seen of one step of the system from a world.  A node that is obsolete there stays so under
    the same write lock. -/
def Follows (only : Prop) (s : OlcSystem sizes U64Key) (w : World sizes) (m : WatchedMap)
    (o : MapEvent) : Prop :=
  ∃ w' m' os, Sees only s w' m' ∧ Run (Atomic.Watch (mapSpec only)) m os m' ∧
    os.reduceOption = [o].reduceOption ∧ ∀ {a d}, w.doomed a = some d → w'.doomed a = some d

theorem Begins.not_removes {op : Operation U64Key} (h : op.Begins only) (honly : only)
    (k : List UInt8) : op.request ≠ .remove k := by
  cases op with
  | remove k' => exact absurd honly h
  | get k' => rintro ⟨⟩
  | insert k' v cachedLeaf => rintro ⟨⟩
  | iter op => rintro ⟨⟩

theorem Begins.ready {op : Operation U64Key} (h : op.Begins only)
    (hhas : w.Has t { request := op.request }) : op.Ready t w := by
  cases op with
  | insert k v cachedLeaf =>
    obtain rfl : cachedLeaf = none := h
    refine ⟨fun leaf hleaf => ?_, hhas⟩
    cases hleaf
  | get k => exact hhas
  | remove k => exact hhas
  | iter op => exact hhas

/-- A call begins. -/
theorem Sees.call {op : Operation U64Key} {p} (h : Sees only s w m) (hmoves : Moves t s s')
    (hidle : (s.threads t).running = none) (hrun : (s'.threads t).running = some (op, p))
    (hop : op.Begins only) : Follows only s' w m (some (.call t op.request)) := by
  cases hmoves with
  | @start op' fuel it _ _ =>
    rw [setThread_self] at hrun
    cases hrun
    have hcaller := h.caller t
    generalize hthread : s.threads t = thread at hcaller hidle
    generalize hc : m.caller t = c at hcaller
    cases hcaller with
    | running => cases hidle
    | @idle it' q did hhas =>
      have hinv : Inv Db.u64Views (w.asked t op.request) := h.inv.asked t fun honly k =>
        Begins.not_removes hop (h.only ▸ honly) k
      have hready : op.Ready t (w.asked t op.request) := Begins.ready hop (hhas.asked op.request)
      have hjob : (w.asked t op.request).job t = ⟨op.request, false, ∅⟩ := setJob_self w t _
      have ht : ThreadIn t (w.asked t op.request) ⟨it, some (op, op.attempt t fuel it)⟩
          ((w.asked t op.request).job t).status :=
        .running (by rw [hjob]) (safe_attempt op hinv hready)
      refine ⟨w.asked t op.request, _, [some (.call t op.request)],
        h.acted h.db hinv rfl (fun hu => .asked hu w _) ht, ?_, rfl, id⟩
      rw [hjob]
      have hobject : (w.asked t op.request).tree.bindings = m.object := h.object.symm
      rw [hobject]
      exact .cons (.call t op.request hc) (.nil _)
  | act hat _ => rw [hidle] at hat; cases hat
  | retry _ hat => rw [hidle] at hat; cases hat
  | finish hat => rw [hidle] at hat; cases hat
  | unwind hat _ => rw [hidle] at hat; cases hat

/-- What a thread in an operation has left to do. -/
theorem Sees.safe {op p} (h : Sees only s w m) (hrun : (s.threads t).running = some (op, p)) :
    op.request = (w.job t).request ∧ m.caller t = (w.job t).status ∧
      (olcRules Db.u64Views False).Safe t (Settles t op.request) (Throws t) p w := by
  have hcaller := h.caller t
  generalize s.threads t = thread at hcaller hrun
  generalize hc : m.caller t = c at hcaller
  cases hcaller with
  | idle => cases hrun
  | running hop hsafe =>
    cases hrun
    exact ⟨hop, rfl, hsafe⟩

/-- A thread does the next action of its attempt. -/
theorem Sees.go {op} {β : Type} {f : Choice → OlcDb sizes → Option (β × OlcDb sizes)} {k}
    (h : Sees only s w m) (hmoves : Moves t s s')
    (hrun : (s.threads t).running = some (op, .atomic f k)) : Follows only s' w m none := by
  cases hmoves with
  | start op fuel hidle => rw [hidle] at hrun; cases hrun
  | @act op β f k choice b db hat hf =>
    obtain ⟨hop, hc, hsafe⟩ := h.safe hat
    rw [← h.db] at hf
    obtain ⟨w', hdb, hinv, hguar, hrest⟩ := hsafe.act h.inv hf
    obtain ⟨os, hwatch, hseen⟩ := JobStep.watch only hguar.job h.object hc
    refine ⟨w', _, os, h.acted hdb hinv ?_ hguar.frame (.running ?_ hrest), hwatch, hseen,
      (hguar.frame (Nat.succ_ne_self t)).doomed⟩
    · exact (hguar.frame (Nat.succ_ne_self t)).insertsOnly
    · rw [hguar.job.request]
      exact hop
  | retry fuel hat => rw [hrun] at hat; cases hat
  | finish hat => rw [hrun] at hat; cases hat
  | unwind hat hexc => rw [hrun] at hat; cases hat

/-- An attempt has to restart: it has had no effect, and nothing that was right before the next one
    counts. -/
theorem Sees.restart {op it op'} (h : Sees only s w m) (hmoves : Moves t s s')
    (hrun : (s.threads t).running = some (op, .ret (it, .again op'))) :
    Follows only s' w m (some (.restart t)) := by
  obtain ⟨hop, hc, hsafe⟩ := h.safe hrun
  obtain ⟨hop', hready⟩ := hsafe w (.refl w) h.inv
  have hs' : ∃ fuel, s' = s.setThread t ⟨it, some (op', op'.attempt t fuel it)⟩ := by
    cases hmoves with
    | start op fuel hidle => rw [hidle] at hrun; cases hrun
    | act hat hf => rw [hrun] at hat; cases hat
    | retry fuel hat => rw [hrun] at hat; cases hat; exact ⟨fuel, rfl⟩
    | finish hat => rw [hrun] at hat; cases hat
    | unwind hat hexc => rw [hrun] at hat; cases hat
  obtain ⟨fuel, rfl⟩ := hs'
  have hrequest : op'.request = (w.job t).request := hop'.trans hop
  have hinv : Inv Db.u64Views (w.asked t op'.request) := h.inv.asked t fun honly k hk =>
    h.inv.not_removes honly t ⟨k, hrequest.symm.trans hk⟩
  have hjob : (w.asked t op'.request).job t = ⟨op'.request, false, ∅⟩ := setJob_self w t _
  have ht : ThreadIn t (w.asked t op'.request) ⟨it, some (op', op'.attempt t fuel it)⟩
      ((w.asked t op'.request).job t).status :=
    .running (by rw [hjob]) (safe_attempt op' hinv (Ready.asked hready))
  refine ⟨w.asked t op'.request, _, [some (.restart t)],
    h.acted h.db hinv rfl (fun hu => .asked hu w _) ht, ?_, rfl, id⟩
  rw [Job.status, hready.did, if_neg Bool.false_ne_true, ← hrequest] at hc
  rw [hjob]
  have hobject : (w.asked t op'.request).tree.bindings = m.object := h.object.symm
  rw [hobject]
  exact .cons (.restart t hc) (.nil _)

/-- An operation returns. -/
theorem Sees.ret {op it r} (h : Sees only s w m) (hmoves : Moves t s s')
    (hrun : (s.threads t).running = some (op, .ret (it, .done r))) :
    Follows only s' w m (some (.ret t op.request r)) := by
  obtain ⟨hop, hc, hsafe⟩ := h.safe hrun
  have hreturn : MayReturn t op.request r w := hsafe w (.refl w) h.inv
  have hs' : s' = s.setThread t ⟨it, none⟩ := by
    cases hmoves with
    | start op fuel hidle => rw [hidle] at hrun; cases hrun
    | act hat hf => rw [hrun] at hat; cases hat
    | retry fuel hat => rw [hrun] at hat; cases hat
    | finish hat => rw [hrun] at hat; cases hat; rfl
    | unwind hat hexc => rw [hrun] at hat; cases hat
  have hidle : ∀ {q did}, w.Has t { request := q, did } →
      Sees only s' w (m.put m.object t .idle) := by
    intro q did hhas
    rw [hs', h.object]
    exact h.acted h.db h.inv rfl (fun _ => .refl _ w) (.idle hhas)
  rw [hop]
  rcases hreturn with ⟨hhas, rfl⟩ | ⟨hhas, hright⟩
  · rw [Job.status, if_pos hhas.did] at hc
    exact ⟨w, _, _, hidle hhas, .cons (.done t hc) (.nil _), rfl, id⟩
  · have hdid : (w.job t).did = false := hhas.did
    rw [Job.status, hdid, if_neg Bool.false_ne_true] at hc
    -- Of some responses nothing is promised: they are right now, as far as the map is specified.
    rcases hright with hsaw | hquiet
    · exact ⟨w, _, _, hidle hhas, .cons (.ret t hc hsaw) (.nil _), rfl, id⟩
    · have hspec : mapSpec only (w.job t).request r m.object m.object := by
        rw [← hop]
        rcases hquiet with hscan | ⟨⟨k, hget⟩, rfl, honly⟩
        · rw [hscan]
          rfl
        · rw [hget]
          exact ⟨fun hyes => absurd (h.only ▸ hyes) honly, rfl⟩
      have hret : Atomic.Watch (ε := Fault) (mapSpec only) _ (some (.ret t _ r)) _ :=
        .ret t (m.put_self m.object t (.pending (w.job t).request (insert r (w.job t).saw)))
          (Set.mem_insert r _)
      rw [Shared.put_put] at hret
      exact ⟨w, _, _, hidle hhas, .cons (.saw t r hc hspec) (.cons hret (.nil _)), rfl, id⟩

/-- An operation is left by an exception. -/
theorem Sees.raise {op e} (h : Sees only s w m) (hmoves : Moves t s s')
    (hrun : (s.threads t).running = some (op, .throw e)) :
    Follows only s' w m (some (.raise t e)) := by
  obtain ⟨hop, hc, hsafe⟩ := h.safe hrun
  obtain ⟨kit, hhas, hkit⟩ := hsafe w (.refl w) h.inv
  have hs' : s' = s.setThread t ⟨(s.threads t).iterator, none⟩ := by
    cases hmoves with
    | start op fuel hidle => rw [hidle] at hrun; cases hrun
    | act hat hf => rw [hrun] at hat; cases hat
    | retry fuel hat => rw [hrun] at hat; cases hat
    | finish hat => rw [hrun] at hat; cases hat
    | unwind hat hexc => rfl
  have hexc : e.isException := by
    cases hmoves with
    | start op fuel hidle => rw [hidle] at hrun; cases hrun
    | act hat hf => rw [hrun] at hat; cases hat
    | retry fuel hat => rw [hrun] at hat; cases hat
    | finish hat => rw [hrun] at hat; cases hat
    | unwind hat hexc => rw [hrun] at hat; cases hat; exact hexc
  rw [hkit.nothing hexc] at hhas
  have hdid : (w.job t).did = false := hhas.did
  rw [Job.status, hdid, if_neg Bool.false_ne_true] at hc
  refine ⟨w, m.put m.object t .idle, _, ?_, .cons (.raise t e hc) (.nil _), rfl, id⟩
  rw [hs', h.object]
  exact h.acted h.db h.inv rfl (fun _ => .refl _ w) (.idle hhas)

theorem Sees.step {o} (h : Sees only s w m) (hstep : CallStep only s o s') :
    Follows only s' w m o := by
  cases hstep with
  | call hmoves hidle hrun hop => exact h.call hmoves hidle hrun hop
  | go hmoves hrun => exact h.go hmoves hrun
  | restart hmoves hrun => exact h.restart hmoves hrun
  | ret hmoves hrun => exact h.ret hmoves hrun
  | raise hmoves hrun => exact h.raise hmoves hrun

/-- The world in which no thread has been asked for anything. -/
def world (sizes : Sizes) (only : Prop) : World sizes where
  db := .empty sizes
  tree := (OlcDb.empty sizes).mem
  path _ := []
  priv _ := none
  doomed _ := none
  job _ := ⟨.scan, false, ∅⟩
  insertsOnly := only

theorem world_inv (only : Prop) : Inv Db.u64Views (world sizes only) where
  tree := Db.Tree.Inv.of_empty rfl fun _ => rfl
  root := rfl
  body ha := by cases ha
  clean _ := by
    intro slot p n n' _ _ hn
    cases hn
  fresh _ := ⟨rfl, rfl⟩
  priv ha := by cases ha
  owned ha := absurd rfl ha
  obsolete a := iff_of_false (by rintro ⟨⟩) (fun ha => ha rfl)
  root_live := by rintro ⟨⟩
  doomed_mem ha := absurd rfl ha
  held ha := by cases ha
  retired hp := by cases hp
  nodup := List.nodup_nil
  counted := Db.Accounted.of_empty (fun _ => rfl) (fun _ => rfl) rfl
  not_removes := by
    rintro _ t ⟨k, ⟨⟩⟩

theorem sees_init (only : Prop) : Sees only (init sizes) (world sizes only) (Atomic.watch ∅) where
  db := rfl
  inv := world_inv only
  only := rfl
  object := by
    refine (Set.eq_empty_iff_forall_notMem.mpr ?_).symm
    rintro b ⟨a, ⟨⟩⟩
  caller t := by
    refine @ThreadIn.idle _ t _ _ .scan false ⟨fun cs => ?_, List.nodup_nil, fun a => ?_,
      List.nodup_nil, ?_, ?_, fun a => ?_, List.nodup_nil, rfl, rfl⟩
    · exact iff_of_false (by rintro ⟨⟩) List.not_mem_nil
    · exact iff_of_false (by rintro ⟨⟩) List.not_mem_nil
    · intro a body ha
      cases ha
    · rintro a ⟨guard, ⟨⟩⟩
    · exact iff_of_false List.not_mem_nil (by rintro ⟨⟨guard, ⟨⟩⟩, -⟩)

/-- What is seen of a run is a run of the watched map. -/
theorem Sees.run {os} (h : Sees only s w m) (hrun : Run (CallStep only) s os s') :
    ∃ w' m' os', Sees only s' w' m' ∧ Run (Atomic.Watch (mapSpec only)) m os' m' ∧
      os'.reduceOption = os.reduceOption ∧ ∀ {a d}, w.doomed a = some d → w'.doomed a = some d := by
  refine Run.invariant_with (I := fun os s => ∃ w' m' os', Sees only s w' m' ∧
    Run (Atomic.Watch (mapSpec only)) m os' m' ∧ os'.reduceOption = os.reduceOption ∧
      ∀ {a d}, w.doomed a = some d → w'.doomed a = some d) ?_ hrun ⟨_, _, [], h, .nil _, rfl, id⟩
  rintro os s o s' ⟨w₁, m₁, os₁, hsees, hrun₁, hseen₁, hdoomed₁⟩ hstep
  obtain ⟨w₂, m₂, os₂, hsees₂, hrun₂, hseen₂, hdoomed₂⟩ := hsees.step hstep
  refine ⟨w₂, m₂, os₁ ++ os₂, hsees₂, hrun₁.append hrun₂, ?_, fun hd => hdoomed₂ (hdoomed₁ hd)⟩
  rw [List.reduceOption_append, List.reduceOption_append, hseen₁, hseen₂]

theorem sees_of_run {os} (hrun : Run (CallStep only) (init sizes) os s) :
    ∃ w m os', Sees only s w m ∧ Run (Atomic.Watch (mapSpec only)) (Atomic.watch ∅) os' m ∧
      os'.reduceOption = os.reduceOption := by
  obtain ⟨w, m, os', hsees, hwatch, hseen, -⟩ := (sees_init only).run hrun
  exact ⟨w, m, os', hsees, hwatch, hseen⟩

/-! ## 4. What the threads do -/

theorem Sees.idle_iff (h : Sees only s w m) (t : Nat) :
    m.caller t = .idle ↔ (s.threads t).running = none := by
  have hcaller := h.caller t
  generalize s.threads t = thread at hcaller ⊢
  generalize m.caller t = c at hcaller ⊢
  cases hcaller with
  | idle => exact iff_of_true rfl rfl
  | running =>
    refine iff_of_false ?_ (Option.some_ne_none _)
    unfold Job.status
    split
    · rintro ⟨⟩
    · rintro ⟨⟩

/-- When no thread is in an operation, no node that is linked is obsolete. -/
theorem Sees.live (h : Sees only s w m) (hquiet : ∀ t, (s.threads t).running = none) {a : Nat}
    (ha : w.tree.heap a ≠ none) : w.doomed a = none := by
  by_contra hdoomed
  obtain ⟨⟨t, guard⟩, hd⟩ := Option.ne_none_iff_exists'.mp hdoomed
  have hcaller := h.caller t
  have hrun := hquiet t
  generalize s.threads t = thread at hcaller hrun
  generalize m.caller t = c at hcaller
  cases hcaller with
  | running => cases hrun
  | idle hhas =>
    rcases hhas.linked ⟨guard, hd⟩ with hlinked | hnone
    · exact absurd hlinked List.not_mem_nil
    · exact ha hnone

/-- The operations of the threads on an `olc_db` with 64-bit keys are those of an atomic map; when no
    thread is in one, the leaves that child pointers lead to from the root are the map. -/
theorem linearizable {os} (hrun : Run (CallStep only) (init sizes) os s) :
    ∃ os' a, Run (Atomic.Step (mapSpec only)) (Atomic.init ∅) os' a ∧
      os'.reduceOption = os.reduceOption ∧
      (∀ t, a.caller t = .idle ↔ (s.threads t).running = none) ∧
      ((∀ t, (s.threads t).running = none) → ∀ k v, (k, v) ∈ a.object ↔
        ∃ p, s.db.Reachable p ∧ s.db.mem.deref p = some (.leaf k v)) := by
  obtain ⟨w, m, os₁, hsees, hwatch, hseen₁⟩ := sees_of_run hrun
  obtain ⟨a, ha⟩ := Atomic.exists_explains m
  obtain ⟨os₂, hatomic, hseen₂⟩ := ha.run_init hwatch
  refine ⟨os₂, a, hatomic, hseen₂.trans hseen₁, fun t => ?_, fun hquiet k v => ?_⟩
  · rw [← hsees.idle_iff t]
    exact (ha.caller t).idle_iff
  · rw [ha.object, hsees.object, ← hsees.db]
    exact (hsees.inv.stores_iff (hsees.live hquiet)).symm

theorem Sees.bindings_eq (h : Sees only s w m) (hquiet : ∀ t, (s.threads t).running = none) :
    m.object = s.db.bindings := by
  rw [h.object, ← h.db]
  exact Set.ext fun b => (h.inv.stores_iff (h.live hquiet)).symm

/-- When no thread is in an operation, the watched map is one that nobody uses. -/
theorem Sees.eq_watch (h : Sees only s w m) (hquiet : ∀ t, (s.threads t).running = none) :
    m = Atomic.watch s.db.bindings := by
  obtain ⟨object, caller⟩ := m
  obtain rfl : object = s.db.bindings := h.bindings_eq hquiet
  obtain rfl : caller = fun _ => .idle := funext fun t => (h.idle_iff t).mpr (hquiet t)
  rfl

/-! ## 5. Schedules with what the callers see of them -/

/-- What a turn of a thread shows. -/
def shown (s : OlcSystem sizes U64Key) (t : Nat) : Turn U64Key → MapEvent
  | .start op => some (.call t op.request)
  | .go _ =>
    match (s.threads t).running with
    | some (_, .ret (_, .again _)) => some (.restart t)
    | some (op, .ret (_, .done r)) => some (.ret t op.request r)
    | some (_, .throw e) => some (.raise t e)
    | _ => none

/-- What a schedule shows. -/
def shownIn : List (Nat × Turn U64Key) → OlcSystem sizes U64Key → List MapEvent
  | [], _ => []
  | (t, turn) :: rest, s => s.shown t turn :: (s.turn t turn).elim [] (shownIn rest)

/-- The turn begins no operation but as a caller does. -/
def Turn.Begins (only : Prop) : Turn U64Key → Prop
  | .start op => op.Begins only
  | .go _ => True

theorem CallStep.of_turn {turn : Turn U64Key} (h : s.turn t turn = some s')
    (hbegins : turn.Begins only) : CallStep only s (s.shown t turn) s' := by
  have hmoves : Moves t s s' := .of_turn h
  cases turn with
  | start op =>
    rw [OlcSystem.turn] at h
    split at h
    · rename_i hidle
      cases h
      exact .call hmoves hidle (congrArg OlcThread.running (setThread_self s _)) hbegins
    · cases h
  | go c =>
    rw [OlcSystem.turn] at h
    unfold shown
    dsimp only
    split at h
    · cases h
    · rename_i hrun
      rw [hrun]
      exact .go hmoves hrun
    · rename_i hrun
      rw [hrun]
      exact .restart hmoves hrun
    · rename_i hrun
      rw [hrun]
      exact .ret hmoves hrun
    · rename_i hrun
      rw [hrun]
      exact .raise hmoves hrun

theorem run_of_play {turns : List (Nat × Turn U64Key)} (h : play turns s = some s')
    (hbegins : ∀ e ∈ turns, e.2.Begins only) : Run (CallStep only) s (shownIn turns s) s' := by
  induction turns generalizing s with
  | nil =>
    cases h
    exact .nil _
  | cons e rest ih =>
    obtain ⟨s₁, hturn, hrest⟩ := Option.bind_eq_some_iff.mp h
    have hstep : CallStep only s (s.shown e.1 e.2) s₁ := .of_turn hturn (hbegins e List.mem_cons_self)
    have hshown : shownIn (e :: rest) s = s.shown e.1 e.2 :: shownIn rest s₁ := by
      show _ :: (s.turn e.1 e.2).elim [] (shownIn rest) = _
      rw [hturn]
      rfl
    rw [hshown]
    exact .cons hstep (ih hrest fun x hx => hbegins x (List.mem_cons_of_mem e hx))

/-- Thread 1 begins to insert a key and comes to an inner node; then thread 0 removes another key, and
    the node above is replaced by that inner node, so that thread 1 has to restart. -/
def overtaken : List (Nat × Turn U64Key) :=
  forked ++ Turn.call 1 (.insert (U64Key.make 0x0003000000000000) [9] none) 10 ++
    Turn.call 0 (.remove (U64Key.make 0x0200000000000000)) 24 ++ List.replicate 22 (1, .go {})

theorem exists_run_overtaken : ∃ os, ∃ s : OlcSystem .olcDb U64Key,
    Run (CallStep False) (init .olcDb) os s ∧
    os.reduceOption.drop 6 = [.call 1 (.insert [0, 3, 0, 0, 0, 0, 0, 0] [9]),
      .call 0 (.remove [2, 0, 0, 0, 0, 0, 0, 0]),
      .ret 0 (.remove [2, 0, 0, 0, 0, 0, 0, 0]) (.updated true), .restart 1,
      .ret 1 (.insert [0, 3, 0, 0, 0, 0, 0, 0] [9]) (.updated true)] ∧
    (∀ t, (s.threads t).running = none) ∧ s.db.retired = [(0, ⟨4, .i4⟩), (0, ⟨3, .leaf⟩)] := by
  have hplay : ((play overtaken (init .olcDb)).any fun s => s.db.retired =
      [(0, ⟨4, .i4⟩), (0, ⟨3, .leaf⟩)] ∧ ∀ t < 2, (s.threads t).running.isNone) = true := by
    decide +kernel
  have hseen : (shownIn overtaken (init .olcDb)).reduceOption.drop 6 =
      [.call 1 (.insert [0, 3, 0, 0, 0, 0, 0, 0] [9]), .call 0 (.remove [2, 0, 0, 0, 0, 0, 0, 0]),
        .ret 0 (.remove [2, 0, 0, 0, 0, 0, 0, 0]) (.updated true), .restart 1,
        .ret 1 (.insert [0, 3, 0, 0, 0, 0, 0, 0] [9]) (.updated true)] := by
    decide +kernel
  obtain ⟨s, hs, hend⟩ := (Option.any_eq_true _ _).mp hplay
  obtain ⟨hretired, hidle⟩ := of_decide_eq_true hend
  have hbegins : ∀ e ∈ overtaken, e.2.Begins False := by
    simp [overtaken, forked, Turn.call, Turn.Begins, Operation.Begins]
  exact ⟨_, s, run_of_play hs hbegins, hseen,
    idle_of_play hs (fun _ => rfl) (by decide +kernel) hidle, hretired⟩

/-- What the callers of that run see, with an attempt that restarts. -/
theorem linearizable_overtaken : ∃ os : List MapEvent, ∃ s : OlcSystem .olcDb U64Key,
    os.reduceOption.drop 6 = [.call 1 (.insert [0, 3, 0, 0, 0, 0, 0, 0] [9]),
      .call 0 (.remove [2, 0, 0, 0, 0, 0, 0, 0]),
      .ret 0 (.remove [2, 0, 0, 0, 0, 0, 0, 0]) (.updated true), .restart 1,
      .ret 1 (.insert [0, 3, 0, 0, 0, 0, 0, 0] [9]) (.updated true)] ∧
    (∀ t, (s.threads t).running = none) ∧
    ∃ os' a, Run (Atomic.Step (mapSpec False)) (Atomic.init ∅) os' a ∧
      os'.reduceOption = os.reduceOption ∧
      (∀ t, a.caller t = .idle ↔ (s.threads t).running = none) ∧
      ((∀ t, (s.threads t).running = none) → ∀ k v, (k, v) ∈ a.object ↔
        ∃ p, s.db.Reachable p ∧ s.db.mem.deref p = some (.leaf k v)) := by
  obtain ⟨os, s, hrun, hseen, hidle, -⟩ := exists_run_overtaken
  exact ⟨os, s, hseen, hidle, linearizable hrun⟩

/-! ## 6. Updates -/

/-- From a state in which no thread is in an operation the updates are those of an atomic map that
    stores what the tree stores.  When no thread is in one again, each key is bound as often as it was
    before and has been inserted, less the times it has been removed; and of the insertions of an
    absent key exactly one has returned true, if any has returned and the key has not been removed. -/
theorem updates_atomic {os₀ os} {s₀ : OlcSystem sizes U64Key}
    (hreach : Run (CallStep only) (init sizes) os₀ s₀)
    (hstart : ∀ t, (s₀.threads t).running = none) (hrun : Run (CallStep only) s₀ os s) :
    ∃ os' a, Run (Atomic.Step (mapSpec only)) (Atomic.init s₀.db.bindings) os' a ∧
      os'.reduceOption = os.reduceOption ∧
      (∀ t, a.caller t = .idle ↔ (s.threads t).running = none) ∧
      ((∀ t, (s.threads t).running = none) → a.object = s.db.bindings ∧ ∀ k,
        bound k s.db.bindings + os.reduceOption.countP (Atomic.returns (removes k)) =
          bound k s₀.db.bindings + os.reduceOption.countP (Atomic.returns (inserts k)) ∧
        (bound k s₀.db.bindings = 0 → os.reduceOption.countP (Atomic.returns (removes k)) = 0 →
          0 < os.reduceOption.countP (Atomic.returns (tries k)) →
          os.reduceOption.countP (Atomic.returns (inserts k)) = 1)) := by
  obtain ⟨w₀, m₀, -, hsees₀, -⟩ := sees_of_run hreach
  obtain ⟨w, m, os₁, hsees, hwatch, hseen₁, -⟩ := hsees₀.run hrun
  rw [hsees₀.eq_watch hstart] at hwatch
  obtain ⟨a, ha⟩ := Atomic.exists_explains m
  obtain ⟨os₂, hatomic, hseen₂⟩ := ha.run_init hwatch
  have hseen : os₂.reduceOption = os.reduceOption := hseen₂.trans hseen₁
  have hidle : ∀ t, a.caller t = .idle ↔ (s.threads t).running = none := fun t =>
    (ha.caller t).idle_iff.trans (hsees.idle_iff t)
  refine ⟨os₂, a, hatomic, hseen, hidle, fun hquiet => ?_⟩
  have hobject : a.object = s.db.bindings := ha.object.trans (hsees.bindings_eq hquiet)
  refine ⟨hobject, fun k => ?_⟩
  obtain ⟨hbalance, hsome⟩ := Atomic.balance_of_run (bound k) (inserts k) (removes k) (tries k)
    (fun h => bound_of_spec h) (fun h htries => tries_of_spec h htries) hatomic fun t =>
      (hidle t).mpr (hquiet t)
  rw [hobject, hseen] at hbalance
  rw [hseen] at hsome
  refine ⟨hbalance, fun habsent hremoved htried => ?_⟩
  have hpos := hsome habsent htried
  have hone := bound_le_one k s.db.bindings
  omega

/-- Two threads insert the same absent key; the one that has begun first comes to the inner node before
    the other one changes it, has to restart and finds the key. -/
def raced : List (Nat × Turn U64Key) :=
  Turn.call 1 (.insert (U64Key.make 0x0003000000000000) [1] none) 13 ++
    Turn.call 0 (.insert (U64Key.make 0x0003000000000000) [2] none) 21 ++
      List.replicate 27 (1, .go {})

/-- One of them returns true. -/
theorem updates_atomic_raced : ∃ os : List MapEvent, ∃ s₀ s : OlcSystem .olcDb U64Key,
    os.reduceOption = [.call 1 (.insert [0, 3, 0, 0, 0, 0, 0, 0] [1]),
      .call 0 (.insert [0, 3, 0, 0, 0, 0, 0, 0] [2]),
      .ret 0 (.insert [0, 3, 0, 0, 0, 0, 0, 0] [2]) (.updated true), .restart 1,
      .ret 1 (.insert [0, 3, 0, 0, 0, 0, 0, 0] [1]) (.updated false)] ∧
    (∀ t, (s.threads t).running = none) ∧
    ∃ os' a, Run (Atomic.Step (mapSpec False)) (Atomic.init s₀.db.bindings) os' a ∧
      os'.reduceOption = os.reduceOption ∧
      (∀ t, a.caller t = .idle ↔ (s.threads t).running = none) ∧
      ((∀ t, (s.threads t).running = none) → a.object = s.db.bindings ∧ ∀ k,
        bound k s.db.bindings + os.reduceOption.countP (Atomic.returns (removes k)) =
          bound k s₀.db.bindings + os.reduceOption.countP (Atomic.returns (inserts k)) ∧
        (bound k s₀.db.bindings = 0 → os.reduceOption.countP (Atomic.returns (removes k)) = 0 →
          0 < os.reduceOption.countP (Atomic.returns (tries k)) →
          os.reduceOption.countP (Atomic.returns (inserts k)) = 1)) := by
  have hplay : ((play forked (init .olcDb)).any fun s₀ => (play raced s₀).any fun s =>
      (shownIn raced s₀).reduceOption = [.call 1 (.insert [0, 3, 0, 0, 0, 0, 0, 0] [1]),
        .call 0 (.insert [0, 3, 0, 0, 0, 0, 0, 0] [2]),
        .ret 0 (.insert [0, 3, 0, 0, 0, 0, 0, 0] [2]) (.updated true), .restart 1,
        .ret 1 (.insert [0, 3, 0, 0, 0, 0, 0, 0] [1]) (.updated false)] ∧
      (∀ t < 2, (s₀.threads t).running.isNone) ∧ ∀ t < 2, (s.threads t).running.isNone) = true := by
    decide +kernel
  obtain ⟨s₀, hs₀, hrest⟩ := (Option.any_eq_true _ _).mp hplay
  obtain ⟨s, hs, hend⟩ := (Option.any_eq_true _ _).mp hrest
  obtain ⟨hseen, hidle₀, hidle⟩ := of_decide_eq_true hend
  have hstart : ∀ t, (s₀.threads t).running = none :=
    idle_of_play hs₀ (fun _ => rfl) (by decide +kernel) hidle₀
  have hreach : Run (CallStep False) (init .olcDb) _ s₀ :=
    run_of_play hs₀ (by simp [forked, Turn.call, Turn.Begins, Operation.Begins])
  have hrun : Run (CallStep False) s₀ _ s :=
    run_of_play hs (by simp [raced, Turn.call, Turn.Begins, Operation.Begins])
  exact ⟨_, s₀, s, hseen, idle_of_play hs hstart (by decide +kernel) hidle,
    updates_atomic hreach hstart hrun⟩

end OlcSystem

end Unodb
