import Unodb.Db.State
import Unodb.Node.Iter

/-!
# Iterators and scans

`db::iterator` keeps the path from the root to the current leaf on a stack.  The functions that the
source has in a forward and a reverse version are one function of the direction here, and each
version is that function at its direction.
-/

open Arrays

namespace Unodb

namespace INode

variable {P : Type}

/-- `begin` in a forward traversal, `last` in a reverse one. -/
def outermost (n : INode P) (fwd : Bool) : Except Fault IterResult :=
  if fwd then n.begin else n.last

/-- `next` in a forward traversal, `prior` in a reverse one. -/
def sibling (n : INode P) (fwd : Bool) (childIndex : Nat) : Except Fault (Option IterResult) :=
  if fwd then n.next childIndex else n.prior childIndex

/-- `gte_key_byte` in a forward traversal, `lte_key_byte` in a reverse one. -/
def nearest (n : INode P) (fwd : Bool) (keyByte : UInt8) : Option IterResult :=
  if fwd then n.gteKeyByte keyByte else n.lteKeyByte keyByte

end INode

/-- `iter_result`: an entry of the stack. -/
structure StackEntry where
  node : NodePtr
  keyByte : UInt8
  childIndex : Nat
  keyPrefix : KeyPrefix
deriving DecidableEq

/-- The stack of an iterator, its top first, and the key buffer. -/
structure Iterator where
  stack : List StackEntry
  keybuf : List UInt8
deriving DecidableEq

namespace Iterator

/-- `invalidate`, also the state of a new iterator. -/
def invalid : Iterator := ⟨[], []⟩

def valid (it : Iterator) : Bool := !it.stack.isEmpty

def push (it : Iterator) (node : NodePtr) (e : IterResult) : Except Fault Iterator := do
  assertThat (node.type ≠ .leaf)
  return {
    stack := ⟨node, e.keyByte, e.childIndex, e.keyPrefix⟩ :: it.stack
    keybuf := it.keybuf ++ e.keyPrefix.bytes ++ [e.keyByte] }

/-- The entry that `push_leaf` mocks up. -/
def leafEntry (leaf : NodePtr) : StackEntry := ⟨leaf, 0xFF, 0xFF, ⟨0, by decide⟩⟩

def pushLeaf (it : Iterator) (leaf : NodePtr) : Iterator :=
  { it with stack := leafEntry leaf :: it.stack }

/-- The key buffer after `pop` of an entry. -/
def popKeybuf (keybuf : List UInt8) (e : StackEntry) : Except Fault (List UInt8) := do
  assertThat (e.keyPrefix.length ≤ keybuf.length)
  return keybuf.take (keybuf.length - e.keyPrefix.length)

/-- `get_key` and `get_val`. -/
def entry (t : Tree) (it : Iterator) : Except Fault (List UInt8 × List UInt8) :=
  match it.stack with
  | [] => .error .assertion
  | e :: _ => do
    assertThat (e.node.type = .leaf)
    t.readLeaf e.node

/-! ## 1. Moving -/

/-- `left_most_traversal` and `right_most_traversal`. -/
def traversal (t : Tree) (fwd : Bool) : Nat → NodePtr → Iterator → Except Fault Iterator
  | 0, _, _ => .error .outOfFuel
  | fuel + 1, node, it =>
    if node.type = .leaf then return it.pushLeaf node
    else do
      let inode ← t.readInode node
      let e ← inode.outermost fwd
      let it ← it.push node e
      match inode.getChild e.childIndex with
      | some child => traversal t fwd fuel child it
      -- An inner node has at least two children, one of which is the outermost.
      | none => throw .assertion

/-- No path of a tree is longer than the number of its nodes. -/
def leftMostTraversal (s : Db sizes) (node : NodePtr) (it : Iterator) : Except Fault Iterator :=
  traversal s.tree true s.next node it

def rightMostTraversal (s : Db sizes) (node : NodePtr) (it : Iterator) : Except Fault Iterator :=
  traversal s.tree false s.next node it

def first (s : Db sizes) : Except Fault Iterator :=
  match s.tree.root with
  | none => .ok .invalid
  | some root => leftMostTraversal s root .invalid

def last (s : Db sizes) : Except Fault Iterator :=
  match s.tree.root with
  | none => .ok .invalid
  | some root => rightMostTraversal s root .invalid

/-- The loop of `next` and of `prior`. -/
def advance (s : Db sizes) (fwd : Bool) : List StackEntry → List UInt8 → Except Fault Iterator
  | [], keybuf => .ok ⟨[], keybuf⟩
  | e :: stack, keybuf =>
    if e.node.type = .leaf then do
      -- The leaf left no bytes in the buffer.
      advance s fwd stack (← popKeybuf keybuf e)
    else do
      let inode ← s.tree.readInode e.node
      match ← inode.sibling fwd e.childIndex with
      -- All children of the node on this side have been visited.
      | none => advance s fwd stack (← popKeybuf keybuf e)
      | some e2 =>
        -- The entry is replaced by that of the sibling, and the other end of its subtree is next.
        let keybuf ← popKeybuf keybuf e
        let it ← push ⟨stack, keybuf⟩ e.node e2
        match inode.getChild e2.childIndex with
        | some child => traversal s.tree fwd s.next child it
        | none => throw .assertion

def next (s : Db sizes) (it : Iterator) : Except Fault Iterator := advance s true it.stack it.keybuf

def prior (s : Db sizes) (it : Iterator) : Except Fault Iterator := advance s false it.stack it.keybuf

/-! ## 2. `seek` -/

/-- The loop of `seek` that looks for an entry with a sibling, at a key byte that no child of the
    current node lies beyond.  It goes down again through the child index of the entry it finds. -/
def unwind (s : Db sizes) (fwd : Bool) : List StackEntry → List UInt8 → Except Fault Iterator
  | [], keybuf => .ok ⟨[], keybuf⟩
  | centry :: stack, keybuf => do
    let icnode ← s.tree.readInode centry.node
    match ← icnode.sibling fwd centry.childIndex with
    | some _ =>
      match icnode.getChild centry.childIndex with
      -- Down through `centry` again, and not through the sibling that has been found.
      | some nchild => traversal s.tree fwd s.next nchild ⟨centry :: stack, keybuf⟩
      | none => throw .assertion
    | none => unwind s fwd stack (← popKeybuf keybuf centry)

section

variable {κ : Type} [ArtKey κ]

/-- The loop of `seek`; the result is the iterator and `match`. -/
def seekLoop (s : Db sizes) (k : κ) (fwd : Bool) :
    Nat → NodePtr → κ → Iterator → Except Fault (Iterator × Bool)
  | 0, _, _, _ => .error .outOfFuel
  | fuel + 1, node, remainingKey, it =>
    if node.type = .leaf then do
      let (key, _) ← s.tree.readLeaf node
      let it := it.pushLeaf node
      let cmp := ArtKey.cmp k key
      if cmp = 0 then return (it, true)
      else if (if fwd then cmp < 0 else 0 < cmp) then return (it, false)
      -- The leaf lies on the wrong side of the key; the walk goes on from it.
      else return (← advance s fwd it.stack it.keybuf, false)
    else do
      let inode ← s.tree.readInode node
      let keyPrefixLength := inode.keyPrefix.length
      let sharedLength := inode.keyPrefix.getSharedLength (ArtKey.getU64 remainingKey)
      if sharedLength < keyPrefixLength then
        let keyByte ← ArtKey.byteAt remainingKey sharedLength
        let prefixByte ← inode.keyPrefix.byteAt sharedLength
        assertThat (keyByte ≠ prefixByte)
        if keyByte < prefixByte then
          -- Every key below the node is above the search key.
          let it ← leftMostTraversal s node it
          if fwd then return (it, false) else return (← prior s it, false)
        else
          -- Every key below the node is below it.
          let it ← rightMostTraversal s node it
          if fwd then return (← next s it, false) else return (it, false)
      else
        let remainingKey ← ArtKey.shiftRight remainingKey keyPrefixLength
        let keyByte ← ArtKey.byteAt remainingKey 0
        match inode.findChild keyByte with
        | none =>
          match inode.nearest fwd keyByte with
          | none =>
            match it.stack with
            -- The root has no entry of its own: nothing lies beyond the key.
            | [] => return (it, false)
            | e :: stack =>
              return (← unwind s fwd stack (← popKeybuf it.keybuf e), false)
          | some tmp =>
            match inode.getChild tmp.childIndex with
            | some child =>
              let it ← it.push node tmp
              -- All keys below that child lie beyond the search key.
              return (← traversal s.tree fwd s.next child it, false)
            | none => throw .assertion
        | some (childIndex, i) =>
          let it ← it.push node ⟨keyByte, childIndex, inode.keyPrefix⟩
          let child ← s.tree.readSlot (.child node.addr i)
          seekLoop s k fwd fuel child (← ArtKey.shiftRight remainingKey 1) it

/-- `seek`. -/
def seek (s : Db sizes) (k : κ) (fwd : Bool) : Except Fault (Iterator × Bool) :=
  match s.tree.root with
  | none => .ok (.invalid, false)
  | some root => seekLoop s k fwd (ArtKey.size k + 1) root k .invalid

end

end Iterator

namespace Db

/-! ## 3. Scans -/

section

variable {κ : Type} [ArtKey κ]

/-- The loop of the scans.  `fn` is called with its state and the entry; the result is the list of
    the entries visited.  `inside` is the bound of `scan_range`. -/
def scanLoop {σ : Type} (s : Db sizes) (fwd : Bool) (inside : List UInt8 → Bool)
    (fn : σ → List UInt8 × List UInt8 → Bool × σ) :
    Nat → Iterator → σ → Except Fault (List (List UInt8 × List UInt8))
  | 0, _, _ => .error .outOfFuel
  | fuel + 1, it, state =>
    if it.valid then do
      let entry ← it.entry s.tree
      if inside entry.1 then
        let (halt, state) := fn state entry
        -- `fn` sees the entry before the iterator moves on.
        if halt then return [entry]
        else
          let it ← Iterator.advance s fwd it.stack it.keybuf
          return entry :: (← scanLoop s fwd inside fn fuel it state)
      else return []
    else return []

variable {σ : Type} (fn : σ → List UInt8 × List UInt8 → Bool × σ) (state : σ)

/-- `scan`.  No more entries are visited than there are nodes. -/
def scan (s : Db sizes) (fwd : Bool) : Except Fault (List (List UInt8 × List UInt8)) := do
  let it ← if fwd then Iterator.first s else Iterator.last s
  scanLoop s fwd (fun _ => true) fn (s.next + 1) it state

/-- `scan_from`, for an internal key. -/
def scanFrom (s : Db sizes) (fromKey : κ) (fwd : Bool) :
    Except Fault (List (List UInt8 × List UInt8)) := do
  let (it, _) ← Iterator.seek s fromKey fwd
  scanLoop s fwd (fun _ => true) fn (s.next + 1) it state

/-- `scan_range`, for internal keys and the result of comparing them. -/
def scanRange (s : Db sizes) (fromKey toKey : κ) (ret : Int) :
    Except Fault (List (List UInt8 × List UInt8)) :=
  -- The same key twice: the range is empty.
  if ret = 0 then return []
  else do
    -- A range that is turned round is scanned in reverse.
    let fwd := decide (ret < 0)
    let (it, _) ← Iterator.seek s fromKey fwd
    let inside := fun key =>
      let cmp := compare key (ArtKey.getKeyView toKey)
      if fwd then decide (cmp < 0) else decide (0 < cmp)
    scanLoop s fwd inside fn (s.next + 1) it state

end

/-- `basic_art_key<std::uint64_t>::cmp`. -/
def cmpU64 (key key2 : U64Key) : Int := memcmp (ArtKey.getKeyView key) (ArtKey.getKeyView key2)

end Db

end Unodb
