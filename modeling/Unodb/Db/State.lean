import Unodb.Node.Split
import Unodb.Stats
import Unodb.Tree.Ops

/-!
# The state of `db` and its operations

`db` with its root pointer, the nodes in memory and the statistics, and the operations of `art.hpp`
on it as programs that read and change that state and may end in a fault.
-/

namespace Unodb

/-- `db` as built with these sizes of its node classes, with the memory it allocates from: `next` is
the next free address, and an allocation for a node class without memory throws. -/
structure Db (sizes : Sizes) where
  tree : Tree
  next : Nat
  stats : Stats
  memory : NodeType → Bool

/-- A program on a `db`.  The state at a fault is the one it leaves. -/
abbrev DbM (sizes : Sizes) := EStateM Fault (Db sizes)

instance : MonadLift (Except Fault) (DbM sizes) where
  monadLift e := fun s =>
    match e with
    | .ok a => .ok a s
    | .error fault => .error fault s

/-- A default-constructed `db`. -/
def Db.empty (sizes : Sizes) : Db sizes where
  tree := { root := none, heap := fun _ => none }
  next := 0
  stats := {}
  memory := fun _ => true

/-- The sizes of the node classes of `db` on x86-64 with AVX2. -/
def Sizes.db : Sizes where
  leaf := 12
  inode
    | .leaf => 12
    | .i4 => 48
    | .i16 => 160
    | .i48 => 672
    | .i256 => 2064
  leaf_pos := by decide
  inode_pos := by
    intro type
    cases type <;> decide

/-- `basic_leaf::max_key_size`. -/
def maxKeySize : Nat := 2 ^ 32 - 1

/-- `basic_leaf::max_value_size`. -/
def maxValueSize : Nat := 2 ^ 32 - 1

namespace Tree

/-- The inner node behind a pointer. -/
def readInode (t : Tree) (p : NodePtr) : Except Fault (INode NodePtr) :=
  match t.deref p with
  | some (.inode n) => .ok n
  | _ => .error .badAccess

/-- The key and the value of the leaf behind a pointer. -/
def readLeaf (t : Tree) (p : NodePtr) : Except Fault (List UInt8 × List UInt8) :=
  match t.deref p with
  | some (.leaf key value) => .ok (key, value)
  | _ => .error .badAccess

/-- The pointer at a place, which is not null. -/
def readSlot (t : Tree) (sl : Slot) : Except Fault NodePtr :=
  match t.load sl with
  | some p => .ok p
  | none => .error .badAccess

end Tree

namespace Db

/-! ## 1. Memory -/

/-- A node constructed in memory that has been allocated for it, and counted. -/
def alloc (body : Body) : DbM sizes NodePtr := do
  let s ← get
  let stats ← s.stats.increment (sizes.of body) body.type
  set ({ s with tree := s.tree.set s.next (some body), next := s.next + 1, stats } : Db sizes)
  return ⟨s.next, body.type⟩

/-- The deleters of `db`: the node is freed and no longer counted. -/
def free (p : NodePtr) : DbM sizes Unit := do
  let s ← get
  match s.tree.deref p with
  | some body =>
    let stats ← s.stats.decrement (sizes.of body) body.type
    set ({ s with tree := s.tree.set p.addr none, stats } : Db sizes)
  | none => throw .badAccess

/-- `allocate_aligned` for a node.  Where it throws, so does its caller, whose own new leaf is freed
    then. -/
def allocate (type : NodeType) (newLeaf : Option NodePtr) : DbM sizes Unit := do
  if !(← get).memory type then
    -- The caller holds the new leaf in a smart pointer, whose deleter runs on the way out.
    newLeaf.forM free
    throw .badAlloc

def readInode (p : NodePtr) : DbM sizes (INode NodePtr) := do (← get).tree.readInode p

/-- `get_key_view` of a leaf. -/
def readKey (p : NodePtr) : DbM sizes (List UInt8) := do
  let leaf ← (← get).tree.readLeaf p
  return leaf.1

def readSlot (sl : Slot) : DbM sizes NodePtr := do (← get).tree.readSlot sl

/-- A store of a pointer. -/
def storeSlot (sl : Slot) (p : NodePtr) : DbM sizes Unit :=
  modify fun s => { s with tree := s.tree.store sl p }

/-- An inner node changed in place. -/
def writeInode (p : NodePtr) (n : INode NodePtr) : DbM sizes Unit :=
  modify fun s => { s with tree := s.tree.set p.addr (some (.inode n)) }

/-! ## 2. Statistics -/

/-- `account_growing_inode`. -/
def accountGrowingInode (type : NodeType) : DbM sizes Unit := do
  modify fun s => { s with stats := s.stats.grown type }
  let s ← get
  -- There are no more nodes of a type than have come to be.
  assertThat (s.stats.nodeCounts type ≤ s.stats.growingInodeCounts type)

/-- `account_shrinking_inode`. -/
def accountShrinkingInode (type : NodeType) : DbM sizes Unit := do
  modify fun s => { s with stats := s.stats.shrunk type }
  let s ← get
  assertThat (s.stats.shrinkingInodeCounts type ≤ s.stats.growingInodeCounts type)

/-- The counter of prefix splits, after `account_growing_inode<node_type::I4>`. -/
def accountKeyPrefixSplit : DbM sizes Unit := do
  modify fun s => { s with stats.keyPrefixSplits := s.stats.keyPrefixSplits + 1 }
  let s ← get
  assertThat (s.stats.keyPrefixSplits < s.stats.growingInodeCounts .i4)

/-! ## 3. Lookup -/

section

variable {κ : Type} [ArtKey κ]

/-- The loop of `get_internal`. -/
def getLoop (t : Tree) (k : κ) : Nat → NodePtr → κ → Except Fault (Option (List UInt8))
  | 0, _, _ => .error .outOfFuel
  | fuel + 1, node, remainingKey =>
    if node.type = .leaf then do
      let (key, value) ← t.readLeaf node
      -- The path can agree with a key that is not this one, so the whole key is compared.
      return if ArtKey.cmp k key = 0 then some value else none
    else do
      let inode ← t.readInode node
      let keyPrefixLength := inode.keyPrefix.length
      -- The key leaves the path inside the prefix of the node.
      if inode.keyPrefix.getSharedLength (ArtKey.getU64 remainingKey) < keyPrefixLength then
        return none
      else
        let remainingKey ← ArtKey.shiftRight remainingKey keyPrefixLength
        match inode.findChild (← ArtKey.byteAt remainingKey 0) with
        | none => return none
        | some (_, i) =>
          let child ← t.readSlot (.child node.addr i)
          getLoop t k fuel child (← ArtKey.shiftRight remainingKey 1)

/-- `get_internal`.  Each round of the loop takes at least one key byte. -/
def getInternal (s : Db sizes) (k : κ) : Except Fault (Option (List UInt8)) :=
  match s.tree.root with
  | none => .ok none
  | some root => getLoop s.tree k (ArtKey.size k + 1) root k

/-! ## 4. Insertion -/

/-- The message of the exception that `make_db_leaf_ptr` throws, if it throws one. -/
def leafRefusal (k : κ) (v : List UInt8) : Option String :=
  if ArtKey.isKeyView κ ∧ maxKeySize < ArtKey.size k then
    some "Key length must fit in std::uint32_t"
  else if maxValueSize < v.length then some "Value length must fit in std::uint32_t"
  else none

/-- `make_db_leaf_ptr`. -/
def makeDbLeafPtr (k : κ) (v : List UInt8) : DbM sizes NodePtr :=
  match leafRefusal k v with
  | some what => throw (.lengthError what)
  | none => do
    -- The key and the value have passed their limits; only memory may be missing now.
    allocate .leaf none
    alloc (.leaf (ArtKey.getKeyView k) v)

/-- `inode_4::create` for a leaf on whose path the new leaf's key starts. -/
def createLeafSplit (existingKey : List UInt8) (remainingKey : κ) (depth : Nat)
    (leaf newLeaf : NodePtr) : DbM sizes NodePtr := do
  -- The new leaf is in nobody's tree yet: where memory is missing it is freed.
  allocate .i4 (some newLeaf)
  let keyPrefix ← KeyPrefix.make existingKey remainingKey depth
  let node ← INode.initLeafSplit keyPrefix existingKey remainingKey depth leaf newLeaf
  alloc (.inode node)

/-- `inode_4::create` for an inner node whose prefix the new leaf's key leaves. -/
def createPrefixSplit (sourceNode : NodePtr) (sharedPrefixLen depth : Nat) (leaf : NodePtr) :
    DbM sizes NodePtr := do
  allocate .i4 (some leaf)
  let source ← readInode sourceNode
  let keyPrefix ← KeyPrefix.truncate sharedPrefixLen source.keyPrefix
  let key ← readKey leaf
  let (node, cut) ← INode.initPrefixSplit keyPrefix source.keyPrefix sourceNode sharedPrefixLen
    depth key leaf
  -- The source node keeps its address and loses the front of its prefix, and the byte after it.
  writeInode sourceNode { source with keyPrefix := cut }
  alloc (.inode node)

/-- `larger_derived_type::create`: the larger node takes over the children and the source node is
    freed. -/
def createLarger (sourceNode : NodePtr) (leaf : NodePtr) (depth : Nat) : DbM sizes NodePtr := do
  allocate sourceNode.type.larger (some leaf)
  let source ← readInode sourceNode
  let key ← readKey leaf
  let node ← source.grow leaf (← viewByte key depth)
  -- The larger node is counted before the smaller one is freed.
  let larger ← alloc (.inode node)
  free sourceNode
  return larger

/-- `impl_helpers::add_or_choose_subtree`: the place of the child for the key byte, or `none` when
    a leaf was added instead. -/
def addOrChooseSubtree (node : NodePtr) (keyByte : UInt8) (k : κ) (v : List UInt8) (depth : Nat)
    (nodeInParent : Slot) : DbM sizes (Option Slot) := do
  let inode ← readInode node
  match inode.findChild keyByte with
  | some (_, i) => return some (.child node.addr i)
  | none =>
    let leaf ← makeDbLeafPtr k v
    let childrenCount := inode.childrenCount
    -- A node of 256 children is never full: its count of 256 is kept as 0.
    if node.type ≠ .i256 ∧ childrenCount = node.type.capacity then
      let larger ← createLarger node leaf depth
      storeSlot nodeInParent larger
      accountGrowingInode larger.type
      return none
    else
      let key ← readKey leaf
      let inode ← inode.addToNonfull leaf (← viewByte key depth) childrenCount
      writeInode node inode
      return none

/-- The loop of `insert_internal`. -/
def insertLoop (insertKey : κ) (v : List UInt8) : Nat → Slot → Nat → κ → DbM sizes Bool
  | 0, _, _, _ => throw .outOfFuel
  | fuel + 1, nodeInParent, depth, remainingKey => do
    let node ← readSlot nodeInParent
    if node.type = .leaf then
      let existingKey ← readKey node
      -- The key is there already; the value stays.
      if ArtKey.cmp insertKey existingKey = 0 then return false
      else
        let newLeaf ← makeDbLeafPtr insertKey v
        let newNode ← createLeafSplit existingKey remainingKey depth node newLeaf
        storeSlot nodeInParent newNode
        accountGrowingInode .i4
        return true
    else
      let inode ← readInode node
      let keyPrefixLength := inode.keyPrefix.length
      let sharedPrefixLen := inode.keyPrefix.getSharedLength (ArtKey.getU64 remainingKey)
      -- The key leaves the tree inside of the prefix: the node gets a parent with both.
      if sharedPrefixLen < keyPrefixLength then
        let leaf ← makeDbLeafPtr insertKey v
        let newNode ← createPrefixSplit node sharedPrefixLen depth leaf
        storeSlot nodeInParent newNode
        accountGrowingInode .i4
        accountKeyPrefixSplit
        return true
      else
        -- The two were read from one prefix, unlike in `olc_db`.
        assertThat (sharedPrefixLen = keyPrefixLength)
        let depth := depth + keyPrefixLength
        let remainingKey ← ArtKey.shiftRight remainingKey keyPrefixLength
        match ← addOrChooseSubtree node (← ArtKey.byteAt remainingKey 0) insertKey v depth
            nodeInParent with
        | none => return true
        | some child => insertLoop insertKey v fuel child (depth + 1) (← ArtKey.shiftRight remainingKey 1)

/-- `insert_internal`. -/
def insertInternal (insertKey : κ) (v : List UInt8) : DbM sizes Bool := do
  if (← get).tree.root = none then
    let leaf ← makeDbLeafPtr insertKey v
    storeSlot .root leaf
    return true
  else insertLoop insertKey v (ArtKey.size insertKey + 1) .root 0 insertKey

/-! ## 5. Removal -/

/-- `leave_last_child`, after which the source deletes the node. -/
def leaveLastChild (node : NodePtr) (childToDelete : Nat) : DbM sizes NodePtr := do
  let inode ← readInode node
  let (keyByte, childToLeave) ← inode.lastChild childToDelete
  if childToLeave.type ≠ .leaf then
    -- Only an inner node has a prefix to take over; a leaf has its whole key.
    let inodeToLeave ← readInode childToLeave
    let keyPrefix ← inodeToLeave.keyPrefix.prepend inode.keyPrefix keyByte
    writeInode childToLeave { inodeToLeave with keyPrefix }
  return childToLeave

/-- `impl_helpers::remove_or_choose_subtree`: no child matches, the leaf was removed, or the place
    of an inner node to go on with. -/
def removeOrChooseSubtree (node : NodePtr) (keyByte : UInt8) (k : κ) (nodeInParent : Slot) :
    DbM sizes (Option (Option Slot)) := do
  let inode ← readInode node
  match inode.findChild keyByte with
  | none => return none
  | some (childI, i) =>
    let child ← readSlot (.child node.addr i)
    if child.type ≠ .leaf then return some (some (.child node.addr i))
    else
      -- The other key bytes of the leaf may differ, below where the paths part.
      let key ← readKey child
      if ArtKey.cmp k key ≠ 0 then return none
      else if inode.isMinSize then
        if node.type = .i4 then
          -- The child that is left over takes the place of the node.
          let childToLeave ← leaveLastChild node childI
          free child
          storeSlot nodeInParent childToLeave
          free node
        else
          allocate node.type.smaller none
          let smaller ← inode.shrink childI
          let newNode ← alloc (.inode smaller)
          free child
          free node
          storeSlot nodeInParent newNode
        -- Of the type that shrank, which is `node.type` in both cases.
        accountShrinkingInode node.type
        return some none
      else
        let inode ← inode.remove childI
        writeInode node inode
        free child
        return some none

/-- The loop of `remove_internal`. -/
def removeLoop (removeKey : κ) : Nat → Slot → κ → DbM sizes Bool
  | 0, _, _ => throw .outOfFuel
  | fuel + 1, nodeInParent, remainingKey => do
    let node ← readSlot nodeInParent
    -- A root that is a leaf was the caller's case, and the children taken below are inner nodes.
    assertThat (node.type ≠ .leaf)
    let inode ← readInode node
    let keyPrefixLength := inode.keyPrefix.length
    let sharedPrefixLen := inode.keyPrefix.getSharedLength (ArtKey.getU64 remainingKey)
    if sharedPrefixLen < keyPrefixLength then return false
    else
      assertThat (sharedPrefixLen = keyPrefixLength)
      let remainingKey ← ArtKey.shiftRight remainingKey keyPrefixLength
      match ← removeOrChooseSubtree node (← ArtKey.byteAt remainingKey 0) removeKey nodeInParent with
      | none => return false
      | some none => return true
      | some (some child) => removeLoop removeKey fuel child (← ArtKey.shiftRight remainingKey 1)

/-- `remove_internal`. -/
def removeInternal (removeKey : κ) : DbM sizes Bool := do
  match (← get).tree.root with
  | none => return false
  | some root =>
    if root.type = .leaf then
      let key ← readKey root
      -- The last key: the tree is empty after this.
      if ArtKey.cmp removeKey key = 0 then
        modify fun s => { s with tree.root := none }
        free root
        return true
      else return false
    else removeLoop removeKey (ArtKey.size removeKey + 1) .root removeKey

end

/-! ## 6. The whole tree -/

/-- `empty`. -/
def isEmpty (s : Db sizes) : Bool := s.tree.root.isNone

/-- `art_policy::delete_subtree`; the node itself is freed on scope exit, after its children. -/
def deleteSubtree : Nat → NodePtr → DbM sizes Unit
  | 0, _ => throw .outOfFuel
  | fuel + 1, node => do
    -- A leaf has no children to free.
    if node.type ≠ .leaf then
      let inode ← readInode node
      assertThat (inode.subtrees.length % 256 = inode.childrenCount)
      inode.subtrees.forM (deleteSubtree fuel)
    free node

/-- `delete_root_subtree`.  No path is longer than the number of nodes. -/
def deleteRootSubtree : DbM sizes Unit := do
  let s ← get
  s.tree.root.forM (deleteSubtree s.next)
  let s ← get
  assertThat (s.stats.nodeCounts .leaf = 0)

/-- `clear`. -/
def clear : DbM sizes Unit := do
  deleteRootSubtree
  modify fun s => { s with tree.root := none, stats := s.stats.cleared }

end Db

end Unodb
