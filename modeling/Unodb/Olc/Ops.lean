import Unodb.Olc.State

/-!
# Insertion, removal and lookup in `olc_db`

`try_insert`, `try_remove` and `try_get` of `olc_art.hpp`, with the helpers they share with the
inner node classes.  Objects with a destructor are spelled out: a guard that is active is unlocked
and a node that was not linked is freed where the scope is left.
-/

namespace Unodb

/-- What an attempt to insert or to remove comes to.  An insertion keeps the leaf it has made for
    the next attempt. -/
inductive Attempt where
  | restart (cachedLeaf : Option NodePtr)
  | done (result : Bool)
deriving DecidableEq

/-- What `add_or_choose_subtree` comes to. -/
inductive AddResult where
  | restart (cachedLeaf : Option NodePtr)
  | added
  | child (childInParent : Slot)
deriving DecidableEq

/-- What `remove_or_choose_subtree` comes to; a child to go on with has its section. -/
inductive RemoveResult where
  | restart
  | notFound
  | removed
  | child (childInParent : Slot) (child : NodePtr) (childCriticalSection : CriticalSection)
deriving DecidableEq

/-- The entry for a child taken out of a node that is being replaced, as the constructors from
    `basic_inode_48` and `basic_inode_256` do. -/
def INode.unlinkChild {P : Type} (n : INode P) (childToDelete : Nat) : INode P :=
  { n with layout := match n.layout with
      | .i48 childIndexes children =>
        .i48 (Function.update childIndexes (UInt8.ofNat childToDelete) emptyChild) children
      | .i256 children => .i256 (Function.update children (UInt8.ofNat childToDelete) none)
      | layout => layout }

namespace OlcDb

variable {κ : Type} [ArtKey κ]

/-! ## 1. Node construction -/

/-- `create_leaf_if_needed`. -/
def createLeafIfNeeded (cachedLeaf : Option NodePtr) (k : κ) (v : List UInt8) : OlcM sizes NodePtr :=
  match cachedLeaf with
  | some leaf => return leaf
  | none => makeDbLeafPtr k v

/-- The reset of the cached leaf. -/
def resetLeaf : Option NodePtr → OlcM sizes Unit
  | some leaf => free leaf
  | none => return ()

/-- `create` of an inner node class.  The exception for lack of memory also leaves the caller, whose
    cached leaf is freed then. -/
def makeDbInode (cachedLeaf : Option NodePtr) (type : NodeType) (keyPrefix : KeyPrefix) :
    OlcM sizes NodePtr := do
  match ← tryMakeDbInode type keyPrefix with
  | some node => return node
  | none =>
    resetLeaf cachedLeaf
    Prog.throw .badAlloc

/-- `olc_inode_4::init(k1, shifted_k2, depth, child1, child2)`. -/
def initLeafSplit (newNode : NodePtr) (existingKey : List UInt8) (remainingKey : κ) (depth : Nat)
    (leaf newLeaf : NodePtr) : OlcM sizes Unit :=
  updateInode newNode fun n =>
    INode.initLeafSplit n.keyPrefix existingKey remainingKey depth leaf newLeaf

/-- `olc_inode_4::init(source_node, len, depth, child1)`. -/
def initPrefixSplit (newNode sourceNode : NodePtr) (sharedPrefixLen depth : Nat)
    (newLeaf : NodePtr) : OlcM sizes Unit := tryAct fun _ s => do
  let n ← s.mem.readInode newNode
  let source ← s.mem.readInode sourceNode
  let leaf ← s.mem.readLeaf newLeaf
  -- The source node keeps its address: its prefix is cut in place, under its guard.
  let (n', cut) ← INode.initPrefixSplit n.keyPrefix source.keyPrefix sourceNode sharedPrefixLen
    depth leaf.1 newLeaf
  let mem := s.mem.set sourceNode.addr (some (.inode { source with keyPrefix := cut }))
  return ((), { s with mem := mem.set newNode.addr (some (.inode n')) })

/-- `init` of a larger node, which has the prefix of the source node already. -/
def initLarger (newNode sourceNode newLeaf : NodePtr) (depth : Nat) : OlcM sizes Unit :=
  tryAct fun _ s => do
    let n ← s.mem.readInode newNode
    let source ← s.mem.readInode sourceNode
    let leaf ← s.mem.readLeaf newLeaf
    let n' ← source.grow newLeaf (← viewByte leaf.1 depth)
    return ((), { s with
      mem := s.mem.set newNode.addr (some (.inode { n' with keyPrefix := n.keyPrefix })) })

/-- `init` of a smaller node, which has the prefix of the source node already. -/
def initSmaller (newNode sourceNode : NodePtr) (childToDelete : Nat) : OlcM sizes Unit :=
  tryAct fun _ s => do
    let n ← s.mem.readInode newNode
    let source ← s.mem.readInode sourceNode
    let n' ← source.shrink childToDelete
    -- The child to delete is taken out of the source node as well, which nobody may read any more.
    let mem := s.mem.set sourceNode.addr (some (.inode (source.unlinkChild childToDelete)))
    return ((), { s with
      mem := mem.set newNode.addr (some (.inode { n' with keyPrefix := n.keyPrefix })) })

/-- `leave_last_child`, up to where the leaf is reclaimed: the other child takes over the prefix of
    the node.  No lock of that child is taken. -/
def leaveLastChild (node : NodePtr) (childToDelete : Nat) : OlcM sizes NodePtr := tryAct fun _ s => do
  let n ← s.mem.readInode node
  let (keyByte, childToLeave) ← n.lastChild childToDelete
  -- An inner node: its prefix is written although no guard of it is held.
  if childToLeave.type ≠ .leaf then
    let m ← s.mem.readInode childToLeave
    let keyPrefix ← m.keyPrefix.prepend n.keyPrefix keyByte
    return (childToLeave,
      { s with mem := s.mem.set childToLeave.addr (some (.inode { m with keyPrefix })) })
  else return (childToLeave, s)

/-! ## 2. Insertion -/

/-- The part of `add_or_choose_subtree` for a full node. -/
def growInode (me : Nat) (node : NodePtr) (depth : Nat) (nodeCs : CriticalSection)
    (nodeInParent : Slot) (parentCs : CriticalSection) (leaf : NodePtr) : OlcM sizes AddResult := do
  -- The prefix is read before the guards are taken, and checked by their upgrades.
  let keyPrefix ← reading [parentCs, nodeCs] node (·.keyPrefix)
  -- Memory is asked for before a lock is taken, so that an exception leaves none locked.
  let larger ← makeDbInode (some leaf) node.type.larger keyPrefix
  if ← writeGuard me parentCs then
    if ← writeGuard me nodeCs then
      unlockAndObsolete nodeCs.lock
      initLarger larger node leaf depth
      onNextEpochDeallocate me node
      storeSlot nodeInParent larger
      unlock parentCs.lock
      accountGrowingInode larger.type
      return .added
    else
      unlock parentCs.lock
      -- The node that was not linked is freed by its owner; the leaf is kept for the next attempt.
      free larger
      return .restart (some leaf)
  else
    free larger
    return .restart (some leaf)

/-- The part of `add_or_choose_subtree` for a node with room. -/
def addToNonfull (me : Nat) (node : NodePtr) (k : κ) (depth : Nat) (nodeCs parentCs : CriticalSection)
    -- Only the node is written: the parent's version is checked once, with the node locked.
    (leaf : NodePtr) (childrenCount : Nat) : OlcM sizes AddResult := do
  if ← writeGuard me nodeCs then
    if ← check parentCs then
      updateInode node fun n => do
        n.addToNonfull leaf (← viewByte (ArtKey.getKeyView k) depth) childrenCount
      unlock nodeCs.lock
      return .added
    else
      unlock nodeCs.lock
      return .restart (some leaf)
  else return .restart (some leaf)

/-- `olc_impl_helpers::add_or_choose_subtree`. -/
def addOrChooseSubtree (me : Nat) (node : NodePtr) (keyByte : UInt8) (k : κ) (v : List UInt8)
    (depth : Nat) (nodeCs : CriticalSection) (nodeInParent : Slot) (parentCs : CriticalSection)
    (cachedLeaf : Option NodePtr) : OlcM sizes AddResult := do
  -- A child is there: nothing has been written, and the caller goes on below it.
  match ← reading [nodeCs] node (·.findChild keyByte) with
  | some (_, i) => return .child (.child node.addr i)
  | none =>
    let leaf ← createLeafIfNeeded cachedLeaf k v
    let childrenCount ← reading [nodeCs] node (·.childrenCount)
    if node.type ≠ .i256 ∧ childrenCount = node.type.capacity then
      growInode me node depth nodeCs nodeInParent parentCs leaf
    else addToNonfull me node k depth nodeCs parentCs leaf childrenCount

/-- The part of `try_insert` for a leaf with another key. -/
def splitLeaf (me : Nat) (k : κ) (v : List UInt8) (cachedLeaf : Option NodePtr) (node : NodePtr)
    (existingKey : List UInt8) (nodeInParent : Slot) (parentCs nodeCs : CriticalSection)
    (depth : Nat) (remainingKey : κ) : OlcM sizes Attempt := do
  let leaf ← createLeafIfNeeded cachedLeaf k v
  -- No node is written until both guards are held; the new node is not shared before it is stored.
  let keyPrefix ← Prog.lift (KeyPrefix.make existingKey remainingKey depth)
  let newNode ← makeDbInode (some leaf) .i4 keyPrefix
  if ← writeGuard me parentCs then
    if ← writeGuard me nodeCs then
      initLeafSplit newNode existingKey remainingKey depth node leaf
      storeSlot nodeInParent newNode
      unlock nodeCs.lock
      unlock parentCs.lock
      accountGrowingInode .i4
      return .done true
    else
      -- The guard of the parent is dropped first, then the new node.
      unlock parentCs.lock
      free newNode
      return .restart (some leaf)
  else
    free newNode
    return .restart (some leaf)

/-- The part of `try_insert` for an inner node whose prefix the key leaves. -/
def splitPrefix (me : Nat) (k : κ) (v : List UInt8) (cachedLeaf : Option NodePtr) (node : NodePtr)
    (sharedPrefixLen : Nat) (nodeInParent : Slot) (parentCs nodeCs : CriticalSection)
    (depth : Nat) : OlcM sizes Attempt := do
  let leaf ← createLeafIfNeeded cachedLeaf k v
  let sourceKeyPrefix ← reading [parentCs, nodeCs] node (·.keyPrefix)
  let keyPrefix ← Prog.lift (KeyPrefix.truncate sharedPrefixLen sourceKeyPrefix)
  let newNode ← makeDbInode (some leaf) .i4 keyPrefix
  if ← writeGuard me parentCs then
    if ← writeGuard me nodeCs then
      -- The source node is locked here, so that readers of its old prefix fail their check.
      initPrefixSplit newNode node sharedPrefixLen depth leaf
      storeSlot nodeInParent newNode
      unlock nodeCs.lock
      unlock parentCs.lock
      accountGrowingInode .i4
      -- The one place at which a prefix is split.
      accountKeyPrefixSplit
      return .done true
    else
      unlock parentCs.lock
      free newNode
      return .restart (some leaf)
  else
    free newNode
    return .restart (some leaf)

/-- The loop of `try_insert`. -/
def insertLoop (me : Nat) (k : κ) (v : List UInt8) (cachedLeaf : Option NodePtr) :
    Nat → NodePtr → Slot → CriticalSection → Nat → κ → OlcM sizes Attempt
  | 0, _, _, _, _, _ => Prog.throw .outOfFuel
  | fuel + 1, node, nodeInParent, parentCs, depth, remainingKey => do
    match ← tryReadLock (.node node.addr) with
    | none => return .restart cachedLeaf
    | some nodeCs =>
      if node.type = .leaf then
        -- The key is compared before any check: leaves never change, and retired ones stay
        -- readable.
        let existingKey ← readKey node
        if ArtKey.cmp k existingKey = 0 then
          if ← check parentCs then
            if ← check nodeCs then
              -- The key is there already. A leaf made by an earlier attempt is given back.
              resetLeaf cachedLeaf
              return .done false
            else return .restart cachedLeaf
          else return .restart cachedLeaf
        else
          splitLeaf me k v cachedLeaf node existingKey nodeInParent parentCs nodeCs depth
            remainingKey
      else
        let keyPrefixLength ← reading [parentCs, nodeCs] node (·.keyPrefix.length)
        let sharedPrefixLen ← reading [parentCs, nodeCs] node
          (·.keyPrefix.getSharedLength (ArtKey.getU64 remainingKey))
        if sharedPrefixLen < keyPrefixLength then
          splitPrefix me k v cachedLeaf node sharedPrefixLen nodeInParent parentCs nodeCs depth
        else
          -- The two are loads of their own, and the prefix may have changed in between.
          Prog.lift (assertThat (sharedPrefixLen = keyPrefixLength))
          let depth := depth + keyPrefixLength
          let remainingKey ← Prog.lift (ArtKey.shiftRight remainingKey keyPrefixLength)
          let keyByte ← Prog.lift (ArtKey.byteAt remainingKey 0)
          match ← addOrChooseSubtree me node keyByte k v depth nodeCs nodeInParent parentCs
              cachedLeaf with
          | .restart cachedLeaf => return .restart cachedLeaf
          | .added => return .done true
          | .child childInParent =>
            -- The parent is given up here: from now on the node is the parent.
            if ← check parentCs then
              let child ← loadChild nodeCs childInParent
              let remainingKey ← Prog.lift (ArtKey.shiftRight remainingKey 1)
              if ← check nodeCs then
                -- The node has not changed since the search, so that the child is there.
                let child ← Prog.lift (child.elim (.error .badAccess) .ok)
                insertLoop me k v cachedLeaf fuel child childInParent nodeCs (depth + 1)
                  remainingKey
              else return .restart cachedLeaf
            else return .restart cachedLeaf

/-- `try_insert`. -/
def tryInsert (me : Nat) (k : κ) (v : List UInt8) (cachedLeaf : Option NodePtr) :
    OlcM sizes Attempt := do
  match ← tryReadLock .root with
  | none => return .restart cachedLeaf
  | some parentCs =>
    match ← loadRoot with
    | none =>
      -- An empty tree: the leaf becomes the root, under the root pointer's lock alone.
      let leaf ← createLeafIfNeeded cachedLeaf k v
      if ← writeGuard me parentCs then
        storeSlot .root leaf
        unlock parentCs.lock
        return .done true
      else return .restart (some leaf)
    | some node =>
      if ← check parentCs then
        insertLoop me k v cachedLeaf (ArtKey.size k + 1) node .root parentCs 0 k
      -- Each round consumes a byte of the key at least.
      else return .restart cachedLeaf

/-! ## 3. Removal -/

/-- The part of `remove_or_choose_subtree` for a node that keeps its type.  The leaf is reclaimed at
    the end of `remove`, but by `basic_inode_48` at its beginning. -/
def removeChild (me : Nat) (node : NodePtr) (childI : Nat) (child : NodePtr)
    (parentCs nodeCs childCs : CriticalSection) : OlcM sizes RemoveResult := do
  if ← check parentCs then
    if ← writeGuard me nodeCs then
      if ← writeGuard me childCs then
        -- The leaf is obsolete before it is out of the node, so that readers of it start again.
        unlockAndObsolete childCs.lock
        if node.type = .i48 then
          onNextEpochDeallocate me child
          updateInode node (·.remove childI)
        else
          updateInode node (·.remove childI)
          onNextEpochDeallocate me child
        unlock nodeCs.lock
        return .removed
      else
        unlock nodeCs.lock
        return .restart
    else return .restart
  else return .restart

/-- The part of `remove_or_choose_subtree` for a minimum-size `olc_inode_4`. -/
def collapseInode (me : Nat) (node : NodePtr) (childI : Nat) (child : NodePtr) (nodeInParent : Slot)
    (parentCs nodeCs childCs : CriticalSection) : OlcM sizes RemoveResult := do
  if ← writeGuard me parentCs then
    if ← writeGuard me nodeCs then
      if ← writeGuard me childCs then
        unlockAndObsolete nodeCs.lock
        -- Both guards are given up as obsolete; the child that is left over keeps its lock word.
        unlockAndObsolete childCs.lock
        let childToLeave ← leaveLastChild node childI
        onNextEpochDeallocate me child
        storeSlot nodeInParent childToLeave
        onNextEpochDeallocate me node
        unlock parentCs.lock
        accountShrinkingInode node.type
        return .removed
      else
        unlock nodeCs.lock
        unlock parentCs.lock
        return .restart
    else
      unlock parentCs.lock
      return .restart
  else return .restart

/-- The part of `remove_or_choose_subtree` for a larger minimum-size node.  The constructor from
    `basic_inode_48` reclaims the leaf first, the others last.  The source leaves open which of its
    arguments `obsolete(source_node_guard)` and `obsolete(child_guard)` comes first; here the node
    does. -/
def shrinkInode (me : Nat) (node : NodePtr) (childI : Nat) (child : NodePtr) (nodeInParent : Slot)
    (parentCs nodeCs childCs : CriticalSection) : OlcM sizes RemoveResult := do
  let keyPrefix ← reading [parentCs, nodeCs] node (·.keyPrefix)
  let smaller ← makeDbInode none node.type.smaller keyPrefix
  if ← writeGuard me parentCs then
    if ← writeGuard me nodeCs then
      if ← writeGuard me childCs then
        unlockAndObsolete nodeCs.lock
        unlockAndObsolete childCs.lock
        -- The order of the two differs by constructor, as in `removeChild`.
        if node.type = .i48 then
          onNextEpochDeallocate me child
          initSmaller smaller node childI
        else
          initSmaller smaller node childI
          onNextEpochDeallocate me child
        onNextEpochDeallocate me node
        storeSlot nodeInParent smaller
        unlock parentCs.lock
        accountShrinkingInode node.type
        return .removed
      else
        unlock nodeCs.lock
        unlock parentCs.lock
        free smaller
        return .restart
    else
      unlock parentCs.lock
      free smaller
      return .restart
  else
    free smaller
    return .restart

/-- `olc_impl_helpers::remove_or_choose_subtree`. -/
def removeOrChooseSubtree (me : Nat) (node : NodePtr) (keyByte : UInt8) (k : κ)
    (parentCs nodeCs : CriticalSection) (nodeInParent : Slot) : OlcM sizes RemoveResult := do
  match ← reading [nodeCs] node (·.findChild keyByte) with
  | none =>
    -- Both sections are checked, since the answer rests on the path and on the node.
    if ← check parentCs then
      if ← check nodeCs then return .notFound else return .restart
    else return .restart
  | some (childI, i) =>
    let child ← loadChild nodeCs (.child node.addr i)
    if ← check nodeCs then
      let child ← Prog.lift (child.elim (.error .badAccess) .ok)
      match ← tryReadLock (.node child.addr) with
      | none => return .restart
      | some childCs =>
        if child.type ≠ .leaf then
          if ← check parentCs then return .child (.child node.addr i) child childCs
          else return .restart
        else
          let key ← readKey child
          if ArtKey.cmp k key ≠ 0 then
            if ← check parentCs then
              if ← check nodeCs then
                -- The leaf is checked too: its key decided.
                if ← check childCs then return .notFound else return .restart
              else return .restart
            else return .restart
          else
            let isNodeMinSize ← reading [nodeCs] node (·.isMinSize)
            if isNodeMinSize then
              if node.type = .i4 then
                -- The two children become one entry of the parent.
                collapseInode me node childI child nodeInParent parentCs nodeCs childCs
              else shrinkInode me node childI child nodeInParent parentCs nodeCs childCs
            else removeChild me node childI child parentCs nodeCs childCs
    else return .restart

/-- The loop of `try_remove`. -/
def removeLoop (me : Nat) (k : κ) :
    Nat → NodePtr → Slot → CriticalSection → CriticalSection → κ → OlcM sizes Attempt
  | 0, _, _, _, _, _ => Prog.throw .outOfFuel
  | fuel + 1, node, nodeInParent, parentCs, nodeCs, remainingKey => do
    let keyPrefixLength ← reading [parentCs, nodeCs] node (·.keyPrefix.length)
    let sharedPrefixLen ← reading [parentCs, nodeCs] node
      (·.keyPrefix.getSharedLength (ArtKey.getU64 remainingKey))
    if sharedPrefixLen < keyPrefixLength then
      if ← check parentCs then
        if ← check nodeCs then return .done false else return .restart none
      else return .restart none
    else
      -- As in `insertLoop`, these may be lengths of two prefixes.
      Prog.lift (assertThat (sharedPrefixLen = keyPrefixLength))
      let remainingKey ← Prog.lift (ArtKey.shiftRight remainingKey keyPrefixLength)
      let keyByte ← Prog.lift (ArtKey.byteAt remainingKey 0)
      match ← removeOrChooseSubtree me node keyByte k parentCs nodeCs nodeInParent with
      | .restart => return .restart none
      | .notFound => return .done false
      | .removed => return .done true
      | .child childInParent child childCs =>
        let remainingKey ← Prog.lift (ArtKey.shiftRight remainingKey 1)
        removeLoop me k fuel child childInParent nodeCs childCs remainingKey

/-- The part of `try_remove` for a leaf at the root. -/
def removeRootLeaf (me : Nat) (node : NodePtr) (parentCs nodeCs : CriticalSection) :
    OlcM sizes Attempt := do
  if ← writeGuard me parentCs then
    if ← writeGuard me nodeCs then
      unlockAndObsolete nodeCs.lock
      clearRoot
      onNextEpochDeallocate me node
      unlock parentCs.lock
      return .done true
    else
      unlock parentCs.lock
      return .restart none
  else return .restart none

/-- `try_remove`. -/
def tryRemove (me : Nat) (k : κ) : OlcM sizes Attempt := do
  match ← tryReadLock .root with
  | none => return .restart none
  | some parentCs =>
    let root ← loadRoot
    if ← check parentCs then
      match root with
      | none => return .done false
      | some node =>
        match ← tryReadLock (.node node.addr) with
        | none => return .restart none
        | some nodeCs =>
          if node.type = .leaf then
            let key ← readKey node
            if ArtKey.cmp k key = 0 then removeRootLeaf me node parentCs nodeCs
            else if ← check nodeCs then return .done false
            else return .restart none
          else removeLoop me k (ArtKey.size k + 1) node .root parentCs nodeCs k
    else return .restart none

/-! ## 4. Lookup -/

/-- The loop of `try_get`; `none` if it must restart. -/
def getLoop (k : κ) :
    Nat → NodePtr → CriticalSection → κ → OlcM sizes (Option (Option (List UInt8)))
  | 0, _, _, _ => Prog.throw .outOfFuel
  | fuel + 1, node, parentCs, remainingKey => do
    match ← tryReadLock (.node node.addr) with
    | none => return none
    | some nodeCs =>
      if ← check parentCs then
        if node.type = .leaf then
          let leaf ← readLeaf node
          let result := if ArtKey.cmp k leaf.1 = 0 then some leaf.2 else none
          if ← check nodeCs then return some result else return none
        else
          let keyPrefixLength ← reading [nodeCs] node (·.keyPrefix.length)
          let sharedKeyPrefixLength ← reading [nodeCs] node
            (·.keyPrefix.getSharedLength (ArtKey.getU64 remainingKey))
          if sharedKeyPrefixLength < keyPrefixLength then
            if ← check nodeCs then return some none else return none
          else
            -- As in `insertLoop`, these may be lengths of two prefixes.
            Prog.lift (assertThat (sharedKeyPrefixLength = keyPrefixLength))
            let remainingKey ← Prog.lift (ArtKey.shiftRight remainingKey keyPrefixLength)
            let keyByte ← Prog.lift (ArtKey.byteAt remainingKey 0)
            match ← reading [nodeCs] node (·.findChild keyByte) with
            | none => if ← check nodeCs then return some none else return none
            | some (_, i) =>
              let child ← loadChild nodeCs (.child node.addr i)
              let remainingKey ← Prog.lift (ArtKey.shiftRight remainingKey 1)
              if ← check nodeCs then
                let child ← Prog.lift (child.elim (.error .badAccess) .ok)
                getLoop k fuel child nodeCs remainingKey
              else return none
      else return none

/-- `try_get`. -/
def tryGet (k : κ) : OlcM sizes (Option (Option (List UInt8))) := do
  match ← tryReadLock .root with
  | none => return none
  | some parentCs =>
    match ← loadRoot with
    | none => if ← check parentCs then return some none else return none
    | some node =>
      if ← check parentCs then getLoop k (ArtKey.size k + 1) node parentCs k
      else return none

end OlcDb

end Unodb
