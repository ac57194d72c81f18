import Unodb.Db.State
import Unodb.Util.Prog

/-!
# The state of `olc_db` and its atomic actions

`olc_db` with its root pointer, the nodes in memory and their optimistic locks, and the accesses to
them that the operations of `olc_art.hpp` are made of.  A call of a node method under a write lock
is one action: what other threads read of the node meanwhile is arbitrary.
-/

namespace Unodb

/-- What an optimistic lock protects: the root pointer or a node. -/
inductive Site where
  | root
  | node (addr : Nat)
deriving DecidableEq, Repr

/-- The lock that protects a place. -/
def Slot.site : Slot → Site
  | .root => .root
  | .child a _ => .node a

/-- The word of an optimistic lock, with a natural number for the version that the source keeps in the
    upper bits of a 64-bit word.  A write-locked one also tells the thread whose write guard is active,
    which the code does not store. -/
inductive LockWord where
  | free (version : Nat)
  | locked (version : Nat) (thread : Nat)
  | obsolete
deriving DecidableEq, Repr

/-- The lock word that `write_unlock` stores. -/
def LockWord.unlocked : LockWord → LockWord
  | .locked version _ => .free (version + 1)
  | word => word

/-- `optimistic_lock::read_critical_section`, with the version as a natural number. -/
structure CriticalSection where
  lock : Site
  version : Nat
deriving DecidableEq, Repr

/-- `olc_db` as built with these sizes of its node classes, with the memory it allocates from.  A node
    that a thread has passed to `on_next_epoch_deallocate` stays in memory for the threads that may
    still read it. -/
structure OlcDb (sizes : Sizes) where
  mem : Tree
  lock : Site → LockWord
  next : Nat
  stats : Stats
  retired : List (Nat × NodePtr)

/-- What an action leaves open: whether an allocation fails, and what is read of a node while
    another thread writes to it. -/
structure Choice where
  badAlloc : Bool := false
  torn : Option (INode NodePtr) := none

/-- A program of a thread on an `olc_db`. -/
abbrev OlcM (sizes : Sizes) := Prog (OlcDb sizes) Choice Fault

/-- A node that its constructor has not given any children. -/
def INode.blank (type : NodeType) (keyPrefix : KeyPrefix) : INode NodePtr where
  keyPrefix
  childrenCount := 0
  layout := match type with
    | .leaf | .i4 => .i4 (List.replicate 4 0) (List.replicate 4 none)
    | .i16 => .i16 (List.replicate 16 0) (List.replicate 16 none)
    | .i48 => .i48 (fun _ => emptyChild) (List.replicate 48 none)
    | .i256 => .i256 fun _ => none

/-- The sizes of the node classes of `olc_db` in a release build on x86-64. -/
def Sizes.olcDb : Sizes where
  leaf := 24
  inode
    | .leaf => 24
    | .i4 => 56
    | .i16 => 176
    | .i48 => 672
    | .i256 => 2072
  leaf_pos := by decide
  inode_pos := by
    intro type
    cases type <;> decide

namespace OlcDb

/-- A default-constructed `olc_db`. -/
def empty (sizes : Sizes) : OlcDb sizes where
  mem := { root := none, heap := fun _ => none }
  lock _ := .free 0
  next := 0
  stats := {}
  retired := []

/-! ## 1. Actions -/

/-- An action that always has an outcome. -/
def act {β : Type} (f : OlcDb sizes → β × OlcDb sizes) : OlcM sizes β := Prog.action fun _ s => some (f s)

/-- An action that may end in a fault, which leaves the state as it is. -/
def tryAct {β : Type} (f : Choice → OlcDb sizes → Except Fault (β × OlcDb sizes)) : OlcM sizes β := do
  let r ← Prog.action fun c s =>
    match f c s with
    | .ok (b, s') => some (Except.ok b, s')
    | .error e => some (Except.error e, s)
  Prog.lift r

def setLock (s : OlcDb sizes) (l : Site) (word : LockWord) : OlcDb sizes :=
  { s with lock := Function.update s.lock l word }

/-- `try_read_lock`, which spins while the lock is taken; no section must restart. -/
def tryReadLock (l : Site) : OlcM sizes (Option CriticalSection) := Prog.action fun _ s =>
  match s.lock l with
  | .free version => some (some ⟨l, version⟩, s)
  | .obsolete => some (none, s)
  -- The source spins here: there is no step until the lock is free.
  | .locked .. => none

/-- `check` and `try_read_unlock`. -/
def check (cs : CriticalSection) : OlcM sizes Bool := act fun s => (s.lock cs.lock = .free cs.version, s)

/-- The constructor of a `write_guard`, which tries to upgrade; false if it must restart. -/
def writeGuard (me : Nat) (cs : CriticalSection) : OlcM sizes Bool := act fun s =>
  if s.lock cs.lock = .free cs.version then (true, s.setLock cs.lock (.locked cs.version me))
  else (false, s)

/-- `write_unlock`, called by the destructor of a `write_guard` that is active. -/
def unlock (l : Site) : OlcM sizes Unit := act fun s => ((), s.setLock l (s.lock l).unlocked)

/-- `unlock_and_obsolete` of a `write_guard`. -/
def unlockAndObsolete (l : Site) : OlcM sizes Unit := act fun s => ((), s.setLock l .obsolete)

/-! ## 2. Reading -/

/-- The load of the root pointer. -/
def loadRoot : OlcM sizes (Option NodePtr) := act fun s => (s.mem.root, s)

/-- A critical section whose lock word has not changed so far. -/
def Valid (s : OlcDb sizes) (cs : CriticalSection) : Prop := s.lock cs.lock = .free cs.version

instance (s : OlcDb sizes) (cs : CriticalSection) : Decidable (s.Valid cs) :=
  inferInstanceAs (Decidable (_ = _))

/-- What a thread sees of a node: once one of its critical sections is no longer valid, anything
    that a node of this type may hold. -/
def view (s : OlcDb sizes) (c : Choice) (css : List CriticalSection) (n : INode NodePtr) :
    INode NodePtr :=
  -- An invalid section may see a torn node; its type is in the pointer and does not change.
  if ∀ cs ∈ css, s.Valid cs then n
  else match c.torn with
    | some n' => if n'.type = n.type then n' else n
    | none => n

/-- A read of an inner node within critical sections. -/
def reading {β : Type} (css : List CriticalSection) (node : NodePtr) (f : INode NodePtr → β) :
    OlcM sizes β := tryAct fun c s => do
  let n ← s.mem.readInode node
  return (f (s.view c css n), s)

/-- The load of a child pointer within the critical section of its node. -/
def loadChild (cs : CriticalSection) (sl : Slot) : OlcM sizes (Option NodePtr) := tryAct fun c s =>
  match sl with
  | .root => .ok (s.mem.root, s)
  | .child a i =>
    match s.mem.heap a with
    | some (.inode n) => .ok ((s.view c [cs] n).slot i, s)
    -- A node that has been replaced or retired is still in memory.
    | _ => .error .badAccess

/-- `get_key_view` of a leaf; leaves do not change. -/
def readKey (node : NodePtr) : OlcM sizes (List UInt8) := tryAct fun _ s => do
  let leaf ← s.mem.readLeaf node
  return (leaf.1, s)

/-- The key and the value of a leaf. -/
def readLeaf (node : NodePtr) : OlcM sizes (List UInt8 × List UInt8) := tryAct fun _ s => do
  let leaf ← s.mem.readLeaf node
  return (leaf, s)

/-! ## 3. Memory -/

/-- Memory for a node, with the node constructed in it and counted. -/
def alloc (s : OlcDb sizes) (body : Body) : Except Fault (NodePtr × OlcDb sizes) := do
  let stats ← s.stats.increment (sizes.of body) body.type
  return (⟨s.next, body.type⟩,
    { s with mem := s.mem.set s.next (some body), next := s.next + 1, stats })

/-- `make_db_leaf_ptr`. -/
def makeDbLeafPtr {κ : Type} [ArtKey κ] (k : κ) (v : List UInt8) : OlcM sizes NodePtr :=
  tryAct fun c s =>
    match Db.leafRefusal k v with
    | some what => .error (.lengthError what)
    -- The limits come before the allocation.
    | none => if c.badAlloc then .error .badAlloc else s.alloc (.leaf (ArtKey.getKeyView k) v)

/-- `make_db_inode_unique_ptr`; `none` if it throws. -/
def tryMakeDbInode (type : NodeType) (keyPrefix : KeyPrefix) : OlcM sizes (Option NodePtr) :=
  tryAct fun c s => do
    -- The caller frees its own leaf before the exception leaves it.
    if c.badAlloc then return (none, s)
    else
      let (node, s) ← s.alloc (.inode (INode.blank type keyPrefix))
      return (some node, s)

/-- `basic_db_leaf_deleter` and `basic_db_inode_deleter`: a node that no other thread knows. -/
def free (node : NodePtr) : OlcM sizes Unit := tryAct fun _ s =>
  match s.mem.deref node with
  | some body => do
    -- The leaf or node has never been linked, so that it is given back at once.
    let stats ← s.stats.decrement (sizes.of body) body.type
    return ((), { s with mem := s.mem.set node.addr none, stats })
  | none => .error .badAccess

/-- `db_leaf_qsbr_deleter` and `db_inode_qsbr_deleter`. -/
def onNextEpochDeallocate (me : Nat) (node : NodePtr) : OlcM sizes Unit := tryAct fun _ s =>
  match s.mem.deref node with
  | some body => do
    let stats ← s.stats.decrement (sizes.of body) body.type
    -- The node stays in memory for the readers that still know it.
    return ((), { s with retired := (me, node) :: s.retired, stats })
  | none => .error .badAccess

/-- A store of a pointer. -/
def storeSlot (sl : Slot) (node : NodePtr) : OlcM sizes Unit := act fun s =>
  ((), { s with mem := s.mem.store sl node })

/-- The root pointer set to null. -/
def clearRoot : OlcM sizes Unit := act fun s => ((), { s with mem.root := none })

/-- An inner node under a write lock changed in place. -/
def updateInode (node : NodePtr) (f : INode NodePtr → Except Fault (INode NodePtr)) : OlcM sizes Unit :=
  tryAct fun _ s => do
    let n ← s.mem.readInode node
    let n' ← f n
    return ((), { s with mem := s.mem.set node.addr (some (.inode n')) })

/-! ## 4. Statistics -/

/-- `account_growing_inode`. -/
def accountGrowingInode (type : NodeType) : OlcM sizes Unit := act fun s =>
  ((), { s with stats := s.stats.grown type })

/-- `account_shrinking_inode`. -/
def accountShrinkingInode (type : NodeType) : OlcM sizes Unit := act fun s =>
  ((), { s with stats := s.stats.shrunk type })

/-- The counter of prefix splits. -/
def accountKeyPrefixSplit : OlcM sizes Unit := act fun s =>
  ((), { s with stats.keyPrefixSplits := s.stats.keyPrefixSplits + 1 })

end OlcDb

end Unodb
