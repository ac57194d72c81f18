import Unodb.Olc.Iterator

/-!
# What the threads on an `olc_db` agree on

The concrete state is seen together with what it means: the tree whose nodes are linked, with the
prefixes they ought to have, the strings that lead to the nodes, and which thread each node that is
not, or not for long, a part of the tree belongs to.  A thread changes the content of a node only
under its write lock; a key prefix it changes only under the lock of the place that points to the
node.
-/

namespace Unodb

/-- The lock that protects a slot of the graph. -/
def graphSite : Radix.Slot NodePtr UInt8 → Site
  | .root => .root
  | .child p _ => .node p.addr

/-- Two nodes are the same but for the key prefix. -/
def Body.SameKids : Body → Body → Prop
  | .leaf k v, .leaf k' v' => k' = k ∧ v' = v
  | .inode n, .inode n' => n'.childrenCount = n.childrenCount ∧ n'.layout = n.layout
  | _, _ => False

/-- The second node is one of the same type with no other children than the first one. -/
def Body.Within : Body → Body → Prop
  | .leaf k v, .leaf k' v' => k' = k ∧ v' = v
  | .inode n, .inode n' => n'.type = n.type ∧ ∀ b c, n'.child b = some c → n.child b = some c
  | _, _ => False

/-- The lock word has this version or a later one, or will not have a version again. -/
def LockWord.AtLeast (version : Nat) : LockWord → Prop
  | .free v => version ≤ v
  | .locked v _ => version ≤ v
  | .obsolete => True

/-- What the threads other than `t` do to a lock word in one action. -/
inductive LockWord.Frame (t : Nat) : LockWord → LockWord → Prop where
  | same (word : LockWord) : Frame t word word
  | lock {u : Nat} (v : Nat) : u ≠ t → Frame t (.free v) (.locked v u)
  | unlock {u : Nat} (v : Nat) : u ≠ t → Frame t (.locked v u) (.free (v + 1))
  | obsolete {u : Nat} (v : Nat) : u ≠ t → Frame t (.locked v u) .obsolete

/-- Who made a node obsolete, under which write lock. -/
structure Doom where
  thread : Nat
  guard : CriticalSection

/-- What a caller asks of the stored map. -/
inductive Request where
  | insert (k v : List UInt8)
  | remove (k : List UInt8)
  | get (k : List UInt8)
  | scan
deriving DecidableEq

/-- What a thread has been asked, whether it has made the update, and which responses that change
    nothing would have been right at some time since it was asked. -/
structure Job where
  request : Request
  did : Bool
  saw : Set OlcDb.Response

/-- An `olc_db` and what it means. -/
structure World (sizes : Sizes) where
  db : OlcDb sizes
  /-- The linked nodes, with the right prefixes. -/
  tree : Tree
  path : NodePtr → List UInt8
  /-- The thread that has a node for itself. -/
  priv : Nat → Option Nat
  doomed : Nat → Option Doom
  job : Nat → Job
  /-- No thread is asked to remove a key. -/
  insertsOnly : Prop

/-- The nodes that the statistics count: those that have not been retired. -/
def OlcDb.counted (s : OlcDb sizes) : Tree where
  root := s.mem.root
  heap a := if a ∈ s.retired.map (·.2.addr) then none else s.mem.heap a

/-- A node that child pointers lead to from the root, through no place that a lock in `X`
    protects. -/
inductive OlcDb.ReachAvoiding (s : OlcDb sizes) (X : Site → Prop) : NodePtr → Prop where
  | root {p} : s.mem.root = some p → ¬ X .root → ReachAvoiding s X p
  | child {p c n b} : ReachAvoiding s X p → s.mem.deref p = some (.inode n) → n.child b = some c →
      ¬ X (.node p.addr) → ReachAvoiding s X c

/-- A node that child pointers lead to from the root. -/
def OlcDb.Reachable (s : OlcDb sizes) (p : NodePtr) : Prop := s.ReachAvoiding (fun _ => False) p

namespace World

/-- The update changes the map of the one tree to that of the other. -/
def Effect (t t' : Tree) : Request → Prop
  | .insert k v => (∀ v', ¬ t.Binds k v') ∧ t.Adds t' k v
  | .remove k => (∃ v, t.Binds k v) ∧ t.Drops t' k
  | _ => False

/-- The response is right for the map of the tree, which it leaves as it is. -/
def Idle (t : Tree) : Request → OlcDb.Response → Prop
  | .insert k _, .updated false => ∃ v, t.Binds k v
  | .remove k, .updated false => ∀ v, ¬ t.Binds k v
  | .get k, .found (some v) => t.Binds k v
  | .get k, .found none => ∀ v, ¬ t.Binds k v
  | _, _ => False

/-- The thread is asked to remove a key. -/
def Removes (w : World sizes) (t : Nat) : Prop := ∃ k, (w.job t).request = .remove k

/-- A node that is linked or was, so that other threads may know it. -/
def Known (w : World sizes) (p : NodePtr) : Prop :=
  (∃ body, w.db.mem.deref p = some body) ∧ (w.tree.heap p.addr ≠ none ∨ w.doomed p.addr ≠ none)

/-- The thread made the node obsolete. -/
def DoomedBy (w : World sizes) (t a : Nat) : Prop := ∃ guard, w.doomed a = some ⟨t, guard⟩

/-- No other thread than `t` may change what the lock protects. -/
def Guarded (w : World sizes) (t : Nat) (l : Site) : Prop :=
  (∃ v, w.db.lock l = .free v) ∨ (∃ v, w.db.lock l = .locked v t) ∨
    ∃ a, l = .node a ∧ w.DoomedBy t a

/-- What a lock protects is the same in two trees, key prefixes apart. -/
def SameSite (t t' : Tree) : Site → Prop
  | .root => t'.root = t.root
  | .node a => ∀ {body}, t.heap a = some body → ∃ body', t'.heap a = some body' ∧
      body.SameKids body'

/-- The nodes below the places that a lock protects have the prefixes they ought to have. -/
def Clean (w : World sizes) (l : Site) : Prop :=
  ∀ {slot p n n'}, graphSite slot = l → w.tree.graph.read slot = some p →
    w.tree.heap p.addr = some (.inode n) → w.db.mem.heap p.addr = some (.inode n') →
    n'.keyPrefix = n.keyPrefix

/-- An inner node keeps its prefix. -/
def SamePrefix (t t' : Tree) (a : Nat) : Prop :=
  ∀ {n}, t.heap a = some (.inode n) → ∃ n', t'.heap a = some (.inode n') ∧
    n'.keyPrefix = n.keyPrefix

/-- An obsolete node that is still linked: the only place that points to it is under the write lock
    that its thread holds, or in a node of which that is true. -/
def Held (w : World sizes) (a : Nat) (d : Doom) : Prop :=
  w.db.lock d.guard.lock = .locked d.guard.version d.thread ∧
  ∃ slot p, p.addr = a ∧ w.tree.graph.read slot = some p ∧
    (graphSite slot = d.guard.lock ∨ ∃ q, graphSite slot = .node q ∧ w.doomed q = some d)

/-- The invariant of an `olc_db` whose keys come from `K`. -/
structure Inv (K : Set (List UInt8)) (w : World sizes) : Prop where
  tree : w.tree.Inv K w.path
  root : w.db.mem.root = w.tree.root
  body : ∀ {a body}, w.tree.heap a = some body → ∃ body', w.db.mem.heap a = some body' ∧
    body.Within body' ∧ (w.doomed a = none → body.SameKids body')
  clean : ∀ {l v}, w.db.lock l = .free v → w.Clean l
  fresh : ∀ {a}, w.db.next ≤ a → w.db.mem.heap a = none ∧ w.db.lock (.node a) = .free 0
  priv : ∀ {a t}, w.priv a = some t → w.db.mem.heap a ≠ none ∧ w.tree.heap a = none ∧
    w.doomed a = none ∧ w.db.lock (.node a) = .free 0
  owned : ∀ {a}, w.db.mem.heap a ≠ none →
    w.tree.heap a ≠ none ∨ w.priv a ≠ none ∨ w.doomed a ≠ none
  obsolete : ∀ a, w.db.lock (.node a) = .obsolete ↔ w.doomed a ≠ none
  root_live : w.db.lock .root ≠ .obsolete
  doomed_mem : ∀ {a}, w.doomed a ≠ none → w.db.mem.heap a ≠ none
  held : ∀ {a d}, w.doomed a = some d → w.tree.heap a ≠ none → w.Held a d
  retired : ∀ {t p}, (t, p) ∈ w.db.retired → w.DoomedBy t p.addr
  nodup : (w.db.retired.map (·.2.addr)).Nodup
  counted : Accounted sizes w.db.counted w.db.next w.db.stats
  not_removes : w.insertsOnly → ∀ t, ¬ w.Removes t

/-- What a thread relies on when another one acts. -/
structure Frame (t : Nat) (w w' : World sizes) : Prop where
  known : ∀ {p}, w.Known p → w'.Known p ∧ w'.path p = w.path p ∧
    ∀ {k v}, w.db.mem.deref p = some (.leaf k v) → w'.db.mem.deref p = some (.leaf k v)
  lock : ∀ l, LockWord.Frame t (w.db.lock l) (w'.db.lock l)
  site : ∀ {l}, w.Guarded t l → SameSite w.tree w'.tree l
  keyPrefix : ∀ {slot p}, w.Guarded t (graphSite slot) → w.tree.graph.read slot = some p →
    SamePrefix w.tree w'.tree p.addr ∧ SamePrefix w.db.mem w'.db.mem p.addr
  /-- Only a removal changes the prefix of a node without the lock of the node. -/
  ownPrefix : w.insertsOnly → ∀ {slot p}, w.Guarded t (.node p.addr) →
    w.tree.graph.read slot = some p →
    SamePrefix w.tree w'.tree p.addr ∧ SamePrefix w.db.mem w'.db.mem p.addr
  priv : ∀ a, (w'.priv a = some t ↔ w.priv a = some t) ∧
    (w.priv a = some t → w'.db.mem.heap a = w.db.mem.heap a)
  doomed : ∀ {a d}, w.doomed a = some d → w'.doomed a = some d
  doomedBy : ∀ {a}, w'.DoomedBy t a → w.DoomedBy t a ∧ w'.db.mem.heap a = w.db.mem.heap a
  /-- A node that was taken out of the tree does not come back. -/
  gone : ∀ {a}, w.doomed a ≠ none → w.tree.heap a = none → w'.tree.heap a = none
  retired : ∀ p, (t, p) ∈ w'.db.retired ↔ (t, p) ∈ w.db.retired
  job : w'.job t = w.job t
  insertsOnly : w'.insertsOnly = w.insertsOnly

/-- How an action of a thread counts for its attempt. -/
inductive JobStep (u : Nat) (w w' : World sizes) : Prop where
  /-- The map stays as it is. -/
  | quiet : w'.job u = w.job u → (∀ k v, w'.tree.Binds k v ↔ w.tree.Binds k v) → JobStep u w w'
  /-- The thread finds the map such that a response that changes nothing is right. -/
  | saw (r : OlcDb.Response) : w'.job u = { w.job u with saw := insert r (w.job u).saw } →
      w'.tree = w.tree → Idle w.tree (w.job u).request r → JobStep u w w'
  /-- The thread makes the update, for the first time in the attempt. -/
  | did : (w.job u).did = false → w'.job u = { w.job u with did := true } →
      Effect w.tree w'.tree (w.job u).request → JobStep u w w'

/-- The thread may pass a node to `on_next_epoch_deallocate`: it is obsolete, has not been retired
    before, and child pointers lead to it only through places that the thread has locked. -/
structure MayRetire (s : OlcDb sizes) (u : Nat) (p : NodePtr) : Prop where
  obsolete : s.lock (.node p.addr) = .obsolete
  first : ∀ t q, (t, q) ∈ s.retired → q.addr ≠ p.addr
  guarded : ¬ s.ReachAvoiding (fun l => ∃ v, s.lock l = .locked v u) p

/-- What a thread does in one action. -/
structure Step (u : Nat) (w w' : World sizes) : Prop where
  frame : ∀ {t}, t ≠ u → Frame t w w'
  job : JobStep u w w'
  retired : w'.db.retired = w.db.retired ∨
    ∃ p, w'.db.retired = (u, p) :: w.db.retired ∧ MayRetire w.db u p

end World

/-- The rules for the threads on an `olc_db` whose keys come from `K`. -/
def olcRules (K : Set (List UInt8)) (solo : Prop) : Discipline (OlcDb sizes) Nat (World sizes) where
  state := World.db
  inv := World.Inv K
  guar := World.Step
  rely := World.Frame
  mayWait _ _ := True
  blocked _ _ := True
  solo := solo

end Unodb
