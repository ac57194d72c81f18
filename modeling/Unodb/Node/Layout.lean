import Unodb.KeyPrefix
import Unodb.Util.Arrays

/-!
# Inner nodes in their four layouts (`basic_inode_4`, `_16`, `_48`, `_256`)

The child pointer type `P` is a parameter; `none` is the null pointer.  An array indexed by a byte
is a function from bytes, any other array is a list of its fixed length, and the entries a
constructor leaves uninitialised are zero bytes and null pointers here: nothing reads them.
-/

open Words Arrays

namespace Unodb

/-- `node_type`. -/
inductive NodeType where
  | leaf
  | i4
  | i16
  | i48
  | i256
deriving DecidableEq, Repr

/-- `min_size` of an inner node type. -/
def NodeType.minSize : NodeType → Nat
  | .leaf => 0
  | .i4 => 2
  | .i16 => 5
  | .i48 => 17
  | .i256 => 49

/-- `capacity` of an inner node type. -/
def NodeType.capacity : NodeType → Nat
  | .leaf => 0
  | .i4 => 4
  | .i16 => 16
  | .i48 => 48
  | .i256 => 256

/-- The fields of the four classes derived from `basic_inode`. -/
inductive Layout (P : Type) where
  | i4 (keys : List UInt8) (children : List (Option P))
  | i16 (keys : List UInt8) (children : List (Option P))
  | i48 (childIndexes : UInt8 → UInt8) (children : List (Option P))
  | i256 (children : UInt8 → Option P)

/-- An inner node: the fields of `basic_inode_impl` and those of the derived class. -/
structure INode (P : Type) where
  keyPrefix : KeyPrefix
  /-- A `std::uint8_t`. -/
  childrenCount : Nat
  layout : Layout P

/-- `UNODB_DETAIL_ASSERT`. -/
def assertThat (c : Prop) [Decidable c] : Except Fault Unit :=
  if c then .ok () else .error .assertion

theorem assertThat_pos {c : Prop} {inst : Decidable c} (h : c) : assertThat c = .ok () := if_pos h

/-- What an access to an array returns; past its end there is nothing to return. -/
def inBounds {α : Type} : Option α → Except Fault α
  | some x => .ok x
  | none => .error .badAccess

theorem assertThat_bind {α : Type} {c : Prop} [Decidable c] (h : c) (k : Unit → Except Fault α) :
    (assertThat c >>= k) = k () := by
  rw [assertThat_pos h]
  rfl

theorem inBounds_bind {α β : Type} {x : Option α} {a : α} (h : x = some a)
    (k : α → Except Fault β) : (inBounds x >>= k) = k a := by
  rw [h]
  rfl

/-- `basic_inode_48::empty_child`. -/
def emptyChild : UInt8 := 0xFF

/-- The bytes in the order in which a loop from 0 to 255 meets them. -/
def allBytes : List UInt8 := (List.range 256).map UInt8.ofNat

/-- The result of an iteration step on a node, less the pointer to the node itself. -/
structure IterResult where
  keyByte : UInt8
  childIndex : Nat
  keyPrefix : KeyPrefix
deriving DecidableEq

namespace INode

variable {P : Type}

def type (n : INode P) : NodeType :=
  match n.layout with
  | .i4 .. => .i4
  | .i16 .. => .i16
  | .i48 .. => .i48
  | .i256 .. => .i256

/-- `is_min_size()`. -/
def isMinSize (n : INode P) : Bool := n.childrenCount = n.type.minSize

/-- The pointer in slot `i` of the pointer array. -/
def slot (n : INode P) (i : Nat) : Option P :=
  match n.layout with
  -- The place in the array beside the keys.
  | .i4 _ children | .i16 _ children | .i48 _ children => (children[i]?).join
  -- There is no array of keys: the byte is the place.
  | .i256 children => children (UInt8.ofNat i)

/-- A store through a pointer into the pointer array, such as the one `find_child` returns. -/
def setSlot (n : INode P) (i : Nat) (p : P) : INode P :=
  { n with layout := match n.layout with
      | .i4 keys children => .i4 keys (children.set i (some p))
      | .i16 keys children => .i16 keys (children.set i (some p))
      | .i48 childIndexes children => .i48 childIndexes (children.set i (some p))
      | .i256 children => .i256 (Function.update children (UInt8.ofNat i) (some p)) }

/-- The index of a key byte among the first `count` keys of a sorted key array. -/
def findKey (keys : List UInt8) (count : Nat) (keyByte : UInt8) : Option Nat :=
  (keys.take count).findIdx? (· = keyByte)

/-- `find_child`: the child index and the slot of the child for a key byte. -/
def findChild (n : INode P) (keyByte : UInt8) : Option (Nat × Nat) :=
  match n.layout with
  -- The keys are sorted and the first `childrenCount` of them are in use; later bytes are stale.
  | .i4 keys _ | .i16 keys _ => (findKey keys n.childrenCount keyByte).map fun i => (i, i)
  | .i48 childIndexes _ =>
    -- The table names a place in the pointer array for each key byte that has a child.
    if childIndexes keyByte ≠ emptyChild then
      some (keyByte.toNat, (childIndexes keyByte).toNat)
    else none
  | .i256 children =>
    if (children keyByte).isSome then some (keyByte.toNat, keyByte.toNat) else none

/-- `get_child`. -/
def getChild (n : INode P) (childIndex : Nat) : Option P :=
  match n.layout with
  | .i48 childIndexes _ =>
    if childIndexes (UInt8.ofNat childIndex) = emptyChild then none
    else n.slot (childIndexes (UInt8.ofNat childIndex)).toNat
  | _ => n.slot childIndex

/-- The children that `delete_subtree` visits, in its order. -/
def subtrees (n : INode P) : List P :=
  match n.layout with
  -- Beyond the count the pointers are stale.
  | .i4 _ children | .i16 _ children => (children.take n.childrenCount).filterMap id
  -- Removed children are null here, and may lie between others.
  | .i48 _ children => children.filterMap id
  | .i256 children => allBytes.filterMap children

/-! ## 1. Adding a child -/

/-- `basic_inode_4::get_insert_pos`: the number of keys at or below the byte. -/
def getInsertPos (keys : List UInt8) (count : Nat) (keyByte : UInt8) : Nat :=
  (keys.take count).countP (· ≤ keyByte)

/-- `basic_inode_16::get_sorted_key_array_insert_position`: the first key at or above the byte. -/
def getSortedKeyArrayInsertPosition (keys : List UInt8) (count : Nat) (keyByte : UInt8) : Nat :=
  (keys.take count).findIdx (keyByte ≤ ·)

/-- Open a gap at `pos` in an array of which `count` entries are in use and fill it. -/
def insertAt {α : Type} (xs : List α) (count pos : Nat) (x : α) : Option (List α) := do
  store (← shiftUp xs pos count) pos x

/-- `add_to_nonfull` for a leaf whose key byte at the node's depth is `keyByte`. -/
def addToNonfull (n : INode P) (child : P) (keyByte : UInt8) (childrenCount : Nat) :
    Except Fault (INode P) := do
  assertThat (childrenCount = n.childrenCount ∧ childrenCount < n.type.capacity)
  match n.layout with
  | .i4 keys children =>
    -- `std::is_sorted`, which equal bytes pass.
    assertThat ((← inBounds (slice keys 0 childrenCount)).Pairwise (· ≤ ·))
    let pos := getInsertPos keys childrenCount keyByte
    let keys ← inBounds (insertAt keys childrenCount pos keyByte)
    let children ← inBounds (insertAt children childrenCount pos (some child))
    assertThat ((← inBounds (slice keys 0 (childrenCount + 1))).Pairwise (· ≤ ·))
    return { n with childrenCount := childrenCount + 1, layout := .i4 keys children }
  | .i16 keys children =>
    -- `std::adjacent_find` besides: no two keys are equal.
    assertThat ((← inBounds (slice keys 0 childrenCount)).Pairwise (· < ·))
    let pos := getSortedKeyArrayInsertPosition keys childrenCount keyByte
    assertThat (pos = childrenCount ∨ (pos < childrenCount ∧ keys[pos]? ≠ some keyByte))
    let keys ← inBounds (insertAt keys childrenCount pos keyByte)
    let children ← inBounds (insertAt children childrenCount pos (some child))
    assertThat ((← inBounds (slice keys 0 (childrenCount + 1))).Pairwise (· ≤ ·))
    return { n with childrenCount := childrenCount + 1, layout := .i16 keys children }
  | .i48 childIndexes children =>
    assertThat (NodeType.i48.minSize ≤ childrenCount ∧ childIndexes keyByte = emptyChild)
    -- The free place; `PointerArray.freeSlot` is how each architecture finds it.
    let i := children.findIdx (·.isNone)
    let children ← inBounds (store children i (some child))
    return { n with
      childrenCount := childrenCount + 1
      layout := .i48 (Function.update childIndexes keyByte (UInt8.ofNat i)) children }
  | .i256 children =>
    assertThat (children keyByte = none)
    return { n with
      -- The 256th child makes the 8-bit count 0.
      childrenCount := (childrenCount + 1) % 256
      layout := .i256 (Function.update children keyByte (some child)) }

/-- The loop of `basic_inode_256::init` over the table of a full `basic_inode_48`. -/
def copyInto256 (childIndexes : UInt8 → UInt8) (pointers : List (Option P)) :
    List UInt8 → Nat → (UInt8 → Option P) → Except Fault (UInt8 → Option P)
  | [], _, _ => .error .badAccess
  -- All bytes have been tried; the source reads on past the table here.
  | i :: is, childrenCopied, children =>
    if childIndexes i = emptyChild then copyInto256 childIndexes pointers is childrenCopied children
    else do
      let children := Function.update children i (← inBounds pointers[(childIndexes i).toNat]?)
      -- Every child of the full node has been copied, so the rest of the table is empty.
      if childrenCopied + 1 = NodeType.i48.capacity then return children
      else copyInto256 childIndexes pointers is (childrenCopied + 1) children

/-- The loop of `basic_inode_48::init` that enters the keys of a full `basic_inode_16`. -/
def fillIndexes (keys : List UInt8) : UInt8 → UInt8 :=
  keys.zipIdx.foldl (fun table key => Function.update table key.1 (UInt8.ofNat key.2))
    fun _ => emptyChild

/-- The constructors of the larger node types: a full node and one more leaf. -/
def grow (n : INode P) (child : P) (keyByte : UInt8) : Except Fault (INode P) :=
  match n.layout with
  | .i4 keys children => do
    assertThat (n.childrenCount = NodeType.i4.capacity)
    let pos := getInsertPos keys n.childrenCount keyByte
    -- The arrays are written around the gap for the new key at once.
    let lowKeys ← inBounds (slice keys 0 pos)
    let lowChildren ← inBounds (slice children 0 pos)
    let highKeys ← inBounds (slice keys pos NodeType.i4.capacity)
    let highChildren ← inBounds (slice children pos NodeType.i4.capacity)
    let keys ← inBounds (fill NodeType.i16.capacity (lowKeys ++ keyByte :: highKeys) 0)
    let children ← inBounds
      (fill NodeType.i16.capacity (lowChildren ++ some child :: highChildren) none)
    return {
      keyPrefix := n.keyPrefix
      childrenCount := NodeType.i16.minSize
      layout := .i16 keys children }
  | .i16 keys children => do
    -- Places are given out in the order of the keys, so that the table maps back to it.
    let childIndexes := fillIndexes (← inBounds (slice keys 0 NodeType.i16.capacity))
    let children ← inBounds (slice children 0 NodeType.i16.capacity)
    assertThat (childIndexes keyByte = emptyChild)
    let children ← inBounds (fill NodeType.i48.capacity (children ++ [some child]) none)
    return {
      keyPrefix := n.keyPrefix
      childrenCount := NodeType.i48.minSize
      -- The new child goes to the place after the sixteen old ones.
      layout := .i48 (Function.update childIndexes keyByte (UInt8.ofNat NodeType.i16.capacity))
        children }
  | .i48 childIndexes children => do
    let children ← copyInto256 childIndexes children allBytes 0 fun _ => none
    assertThat (children keyByte = none)
    return {
      keyPrefix := n.keyPrefix
      childrenCount := NodeType.i256.minSize
      layout := .i256 (Function.update children keyByte (some child)) }
  -- A `basic_inode_256` has no larger type.
  | .i256 _ => throw .cannotHappen

/-- `basic_inode_4::add_two_to_empty`, on a node that has its prefix. -/
def addTwoToEmpty (keyPrefix : KeyPrefix) (key1 : UInt8) (child1 : P) (key2 : UInt8) (child2 : P) :
    Except Fault (INode P) := do
  assertThat (key1 ≠ key2)
  -- The lower byte goes first.
  let layout := if key1 < key2 then
      Layout.i4 [key1, key2, 0, 0] [some child1, some child2, none, none]
    else Layout.i4 [key2, key1, 0, 0] [some child2, some child1, none, none]
  return { keyPrefix, childrenCount := NodeType.i4.minSize, layout }

/-! ## 2. Removing a child -/

/-- `remove`. -/
def remove (n : INode P) (childIndex : Nat) : Except Fault (INode P) := do
  match n.layout with
  | .i4 keys children =>
    assertThat (childIndex < n.childrenCount)
    assertThat ((← inBounds (slice keys 0 n.childrenCount)).Pairwise (· ≤ ·))
    -- The pointer is read to free the child.
    let _ ← inBounds children[childIndex]?
    let keys ← inBounds (shiftDown keys childIndex (n.childrenCount - 1 - childIndex))
    let children ← inBounds (shiftDown children childIndex (n.childrenCount - 1 - childIndex))
    assertThat ((← inBounds (slice keys 0 (n.childrenCount - 1))).Pairwise (· ≤ ·))
    return { n with childrenCount := n.childrenCount - 1, layout := .i4 keys children }
  | .i16 keys children =>
    assertThat (childIndex < n.childrenCount)
    assertThat ((← inBounds (slice keys 0 n.childrenCount)).Pairwise (· ≤ ·))
    let _ ← inBounds children[childIndex]?
    let keys ← inBounds (shiftDown keys childIndex (n.childrenCount - 1 - childIndex))
    let children ← inBounds (shiftDown children childIndex (n.childrenCount - 1 - childIndex))
    assertThat ((← inBounds (slice keys 0 (n.childrenCount - 1))).Pairwise (· ≤ ·))
    return { n with childrenCount := n.childrenCount - 1, layout := .i16 keys children }
  | .i48 childIndexes children =>
    -- The place in the pointer array is empty afterwards, and the others stay where they are.
    let childrenI := childIndexes (UInt8.ofNat childIndex)
    assertThat (childrenI ≠ emptyChild)
    let children ← inBounds (store children childrenI.toNat none)
    return { n with
      childrenCount := n.childrenCount - 1
      layout := .i48 (Function.update childIndexes (UInt8.ofNat childIndex) emptyChild)
        children }
  | .i256 children =>
    return { n with
      -- One less modulo 256: from 0, which stands for 256, to 255.
      childrenCount := (n.childrenCount + 255) % 256
      layout := .i256 (Function.update children (UInt8.ofNat childIndex) none) }

/-- The loop of `basic_inode_16::init` over the table of a `basic_inode_48`. -/
def copyInto16 (childIndexes : UInt8 → UInt8) (pointers : List (Option P)) :
    List UInt8 → List UInt8 → List (Option P) → Except Fault (List UInt8 × List (Option P))
  | [], _, _ => .error .assertion
  | i :: is, keys, children =>
    if childIndexes i ≠ emptyChild then do
      let keys ← inBounds (push NodeType.i16.capacity keys i)
      let pointer ← inBounds pointers[(childIndexes i).toNat]?
      assertThat (pointer.isSome)
      let children ← inBounds (push NodeType.i16.capacity children pointer)
      -- The last child; what is left of the table belongs to nobody.
      if keys.length = NodeType.i16.capacity then return (keys, children)
      else copyInto16 childIndexes pointers is keys children
    else copyInto16 childIndexes pointers is keys children

/-- The loop of `basic_inode_48::init` over the pointers of a `basic_inode_256`. -/
def copyInto48 (pointers : UInt8 → Option P) :
    List UInt8 → (UInt8 → UInt8) → List (Option P) →
      Except Fault ((UInt8 → UInt8) × List (Option P))
  | [], childIndexes, children => .ok (childIndexes, children)
  | i :: is, childIndexes, children =>
    match pointers i with
    | none => copyInto48 pointers is childIndexes children
    | some p => do
      let childIndexes := Function.update childIndexes i (UInt8.ofNat children.length)
      let children ← inBounds (push NodeType.i48.capacity children (some p))
      if children.length = NodeType.i48.capacity then return (childIndexes, children)
      else copyInto48 pointers is childIndexes children

/-- The constructors of the smaller node types: a minimum-size node less one child. -/
def shrink (n : INode P) (childToDelete : Nat) : Except Fault (INode P) :=
  match n.layout with
  | .i4 .. => throw .cannotHappen
  | .i16 keys children => do
    -- Without the entry that is deleted, the others keep their order.
    let lowKeys ← inBounds (slice keys 0 childToDelete)
    let lowChildren ← inBounds (slice children 0 childToDelete)
    let _ ← inBounds children[childToDelete]?
    let highKeys ← inBounds (slice keys (childToDelete + 1) NodeType.i16.minSize)
    let highChildren ← inBounds (slice children (childToDelete + 1) NodeType.i16.minSize)
    let keys ← inBounds (fill NodeType.i4.capacity (lowKeys ++ highKeys) 0)
    let children ← inBounds (fill NodeType.i4.capacity (lowChildren ++ highChildren) none)
    assertThat ((← inBounds (slice keys 0 NodeType.i4.capacity)).Pairwise (· ≤ ·))
    return {
      keyPrefix := n.keyPrefix
      childrenCount := NodeType.i4.capacity
      layout := .i4 keys children }
  | .i48 childIndexes children => do
    assertThat (childIndexes (UInt8.ofNat childToDelete) ≠ emptyChild)
    let _ ← inBounds children[(childIndexes (UInt8.ofNat childToDelete)).toNat]?
    -- The deleted child's byte is skipped like one without a child.
    let childIndexes := Function.update childIndexes (UInt8.ofNat childToDelete) emptyChild
    let (keys, children) ← copyInto16 childIndexes children allBytes [] []
    assertThat ((← inBounds (slice keys 0 NodeType.i16.capacity)).Pairwise (· ≤ ·))
    return {
      keyPrefix := n.keyPrefix
      childrenCount := NodeType.i16.capacity
      layout := .i16 keys children }
  | .i256 children => do
    -- The deleted child is not copied.
    let children := Function.update children (UInt8.ofNat childToDelete) none
    let (childIndexes, children) ← copyInto48 children allBytes (fun _ => emptyChild) []
    return {
      keyPrefix := n.keyPrefix
      childrenCount := NodeType.i48.capacity
      layout := .i48 childIndexes children }

/-- The child of a two-child `basic_inode_4` that `leave_last_child` keeps, with its key byte. -/
def lastChild (n : INode P) (childToDelete : Nat) : Except Fault (UInt8 × P) := do
  assertThat (n.isMinSize ∧ (childToDelete = 0 ∨ childToDelete = 1))
  -- Of the two places the other one.
  let childToLeave := if childToDelete = 0 then 1 else 0
  match n.layout with
  | .i4 keys children =>
    let _ ← inBounds children[childToDelete]?
    match keys[childToLeave]?, (children[childToLeave]?).join with
    | some b, some p => return (b, p)
    | _, _ => throw .badAccess
  | _ => throw .cannotHappen

end INode

end Unodb
