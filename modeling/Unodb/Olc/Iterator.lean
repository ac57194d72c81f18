import Unodb.Util.Outcome
import Unodb.Db.Iterator
import Unodb.Olc.Ops

/-!
# Iterators of `olc_db`

`olc_db::iterator` keeps with every entry of its stack the version of the lock under which it was
pushed.  An attempt that finds a lock changed leaves the iterator as it is at that point.  As for
`db`, the forward and the reverse version of a function are one function of the direction here.
-/

namespace Unodb

/-- `stack_entry`: an entry of the stack and a version of the lock of its node. -/
structure OlcStackEntry extends StackEntry where
  version : Nat
deriving DecidableEq

/-- `olc_db::iterator`. -/
structure OlcIterator where
  stack : List OlcStackEntry
  keybuf : List UInt8
deriving DecidableEq

/-- `rehydrate_read_lock` of the lock of an entry. -/
def OlcStackEntry.section (e : OlcStackEntry) : CriticalSection := ⟨.node e.node.addr, e.version⟩

/-- Whether a fault is an exception, which the caller of an operation may catch.  The others end the
    process or leave its behaviour undefined. -/
def Fault.isException : Fault → Bool
  | .lengthError _ | .badAlloc => true
  | _ => false

/-- An internal key that can be made of the bytes of a leaf (`get_key`), and whose bytes are read
    without exceptions. -/
class StoredKey (κ : Type) extends ArtKey κ where
  ofKeyView : List UInt8 → κ
  byteAt_failsOnly : ∀ k i, FailsOnly (fun e => e.isException = false) (byteAt k i)

instance : StoredKey U64Key where
  ofKeyView key := ⟨getU64 key⟩
  byteAt_failsOnly _ _ := .ite .ok (.error rfl)

instance : StoredKey KeyView where
  ofKeyView key := ⟨key⟩
  byteAt_failsOnly _ _ := .dite (fun _ => .ok) fun _ => .error rfl

namespace OlcIterator

/-- A new iterator. -/
def new : OlcIterator := ⟨[], []⟩

def valid (it : OlcIterator) : Bool := !it.stack.isEmpty

/-- `invalidate` pops the stack and leaves the key buffer. -/
def invalidate (it : OlcIterator) : OlcIterator := { it with stack := [] }

/-- `try_push`. -/
def tryPush (it : OlcIterator) (node : NodePtr) (e : IterResult) (cs : CriticalSection) :
    Except Fault OlcIterator := do
  assertThat (node.type ≠ .leaf)
  return {
    stack := ⟨⟨node, e.keyByte, e.childIndex, e.keyPrefix⟩, cs.version⟩ :: it.stack
    keybuf := it.keybuf ++ e.keyPrefix.bytes ++ [e.keyByte] }

/-- `try_push_leaf`. -/
def tryPushLeaf (it : OlcIterator) (leaf : NodePtr) (cs : CriticalSection) : OlcIterator :=
  { it with stack := ⟨Iterator.leafEntry leaf, cs.version⟩ :: it.stack }

end OlcIterator

namespace OlcDb

/-- The end of an attempt: the iterator, and false if it must restart. -/
abbrev Tried := OlcIterator × Bool

/-- The outcome of an attempt to seek: `none` if it must restart, and else `match`. -/
abbrev Sought := OlcIterator × Option Bool

/-- An attempt that ends as another one does, without an exact match. -/
def unmatched (r : Tried) : Sought := (r.1, if r.2 then some false else none)

/-- `check` or `try_read_unlock` at the end of an attempt. -/
def checked (cs : CriticalSection) (it : OlcIterator) : OlcM sizes Tried := do
  return (it, ← check cs)

/-! ## 1. Descents to an outermost leaf -/

/-- The loop of `try_left_most_traversal` and `try_right_most_traversal`. -/
def traversalLoop (fwd : Bool) : Nat → NodePtr → CriticalSection → OlcIterator → OlcM sizes Tried
  | 0, _, _, _ => Prog.throw .outOfFuel
  | fuel + 1, node, parentCs, it => do
    match ← tryReadLock (.node node.addr) with
    | none => return (it, false)
    | some nodeCs =>
      -- The node was the parent's child when its lock was read.
      if ← check parentCs then
        if node.type = .leaf then checked nodeCs (it.tryPushLeaf node nodeCs)
        else
          let t ← reading [nodeCs] node (·.outermost fwd)
          if ← check nodeCs then
            let t ← Prog.lift t
            let it ← Prog.lift (it.tryPush node t nodeCs)
            -- The child is read after the check of the entry, and checked for itself.
            let child ← reading [nodeCs] node (·.getChild t.childIndex)
            if ← check nodeCs then
              let child ← Prog.lift (child.elim (.error .badAccess) .ok)
              traversalLoop fwd fuel child nodeCs it
            else return (it, false)
          else return (it, false)
      else return (it, false)

/-- `try_left_most_traversal` and `try_right_most_traversal`. -/
def tryTraversal (fuel : Nat) (fwd : Bool) (node : NodePtr) (parentCs : CriticalSection)
    (it : OlcIterator) : OlcM sizes Tried := do
  if ← check parentCs then traversalLoop fwd fuel node parentCs it else return (it, false)

/-- `try_first` and `try_last`. -/
def tryOutermost (fuel : Nat) (fwd : Bool) (it : OlcIterator) : OlcM sizes Tried := do
  let it := it.invalidate
  match ← tryReadLock .root with
  | none => return (it, false)
  | some parentCs =>
    match ← loadRoot with
    | none => checked parentCs it
    | some node => tryTraversal fuel fwd node parentCs it

/-! ## 2. Moving -/

/-- `try_next` and `try_prior`. -/
def tryAdvance (fuel : Nat) (fwd : Bool) : List OlcStackEntry → List UInt8 → OlcM sizes Tried
  | [], keybuf => return (⟨[], keybuf⟩, true)
  | e :: stack, keybuf => do
    -- The section is made again from the version on the stack.
    if ← check e.section then
      if e.node.type = .leaf then
        let keybuf ← Prog.lift (Iterator.popKeybuf keybuf e.toStackEntry)
        if ← check e.section then tryAdvance fuel fwd stack keybuf
        -- The leaf may have been removed meanwhile: then its lock is obsolete.
        else return (⟨stack, keybuf⟩, false)
      else
        -- The sibling counts only if the node has not changed since it was pushed.
        let nxt ← reading [e.section] e.node (·.sibling fwd e.childIndex)
        if ← check e.section then
          match ← Prog.lift nxt with
          | none =>
            let keybuf ← Prog.lift (Iterator.popKeybuf keybuf e.toStackEntry)
            if ← check e.section then tryAdvance fuel fwd stack keybuf
            else return (⟨stack, keybuf⟩, false)
          | some e2 =>
            let keybuf ← Prog.lift (Iterator.popKeybuf keybuf e.toStackEntry)
            -- The entry of the sibling keeps the version under which the node was entered.
            let it ← Prog.lift (OlcIterator.tryPush ⟨stack, keybuf⟩ e.node e2 e.section)
            let child ← reading [e.section] e.node (·.getChild e2.childIndex)
            if ← check e.section then
              let child ← Prog.lift (child.elim (.error .badAccess) .ok)
              tryTraversal fuel fwd child e.section it
            else return (it, false)
        else return (⟨e :: stack, keybuf⟩, false)
    else return (⟨e :: stack, keybuf⟩, false)

/-! ## 3. `seek` -/

/-- The loop of `try_seek` that looks for an entry with a sibling, and goes down again through the
    child index of the entry it finds. -/
def tryUnwind (fuel : Nat) (fwd : Bool) : List OlcStackEntry → List UInt8 → OlcM sizes Tried
  | [], keybuf => return (⟨[], keybuf⟩, true)
  | centry :: stack, keybuf => do
    if ← check centry.section then
      let cnxt ← reading [centry.section] centry.node (·.sibling fwd centry.childIndex)
      match ← Prog.lift cnxt with
      | some _ =>
        let nchild ← reading [centry.section] centry.node (·.getChild centry.childIndex)
        if ← check centry.section then
          let nchild ← Prog.lift (nchild.elim (.error .badAccess) .ok)
          -- Down through `centry` again, as in `Iterator.unwind`.
          tryTraversal fuel fwd nchild centry.section ⟨centry :: stack, keybuf⟩
        else return (⟨centry :: stack, keybuf⟩, false)
      | none =>
        let keybuf ← Prog.lift (Iterator.popKeybuf keybuf centry.toStackEntry)
        if ← check centry.section then tryUnwind fuel fwd stack keybuf
        else return (⟨stack, keybuf⟩, false)
    else return (⟨centry :: stack, keybuf⟩, false)

section

variable {κ : Type} [ArtKey κ]

/-- The part of `try_seek` for a leaf, after the parent is unlocked. -/
def seekLeaf (fuel : Nat) (k : κ) (fwd : Bool) (node : NodePtr) (nodeCs : CriticalSection)
    (it : OlcIterator) : OlcM sizes Sought := do
  -- The leaf is on the stack before its key is known to be wanted.
  let it := it.tryPushLeaf node nodeCs
  let cmp := ArtKey.cmp k (← readKey node)
  if ← check nodeCs then
    if cmp = 0 then return (it, some true)
    else if (if fwd then cmp < 0 else 0 < cmp) then return (it, some false)
    else return unmatched (← tryAdvance fuel fwd it.stack it.keybuf)
  else return (it, none)

/-- The part of `try_seek` for a key that parts from the prefix of a node: down on one side of the
    node, whose own section is unlocked then (`unlock_and_return`), and on from there when the node
    does not lie in the direction. -/
def seekFork (fuel : Nat) (fwd : Bool) (keyByte prefixByte : UInt8) (node : NodePtr)
    (parentCs nodeCs : CriticalSection) (it : OlcIterator) : OlcM sizes Sought := do
  -- Down on the side of the search key's place, whichever way the scan goes.
  let (it, ok) ← tryTraversal fuel (decide (keyByte < prefixByte)) node parentCs it
  if ← check nodeCs then
    if ok then
      -- The outermost key below the node is the next one in the direction.
      if fwd = decide (keyByte < prefixByte) then return (it, some false)
      -- The node lies behind: on from its last key.
      else return unmatched (← tryAdvance fuel fwd it.stack it.keybuf)
    else return (it, none)
  else return (it, none)

/-- The part of `try_seek` for a key byte that the current node does not map. -/
def seekGap (fuel : Nat) (fwd : Bool) (keyByte : UInt8) (node : NodePtr)
    (parentCs nodeCs : CriticalSection) (it : OlcIterator) : OlcM sizes Sought := do
  match ← reading [nodeCs] node (·.nearest fwd keyByte) with
  | none =>
    if ← check parentCs then
      if ← check nodeCs then
        match it.stack with
        -- The root has no entry of its own: nothing lies beyond the key.
        | [] => return (it, some false)
        | e :: stack =>
          let keybuf ← Prog.lift (Iterator.popKeybuf it.keybuf e.toStackEntry)
          return unmatched (← tryUnwind fuel fwd stack keybuf)
      else return (it, none)
    else return (it, none)
  | some tmp =>
    let child ← reading [nodeCs] node (·.getChild tmp.childIndex)
    if ← check nodeCs then
      if ← check parentCs then
        -- Parent and node are as they were, so the child is the nearest one beyond the key.
        let it ← Prog.lift (it.tryPush node tmp nodeCs)
        let child ← Prog.lift (child.elim (.error .badAccess) .ok)
        return unmatched (← tryTraversal fuel fwd child nodeCs it)
      else return (it, none)
    else return (it, none)

/-- The loop of `try_seek`. -/
def seekLoop (fuel : Nat) (k : κ) (fwd : Bool) :
    Nat → NodePtr → CriticalSection → κ → OlcIterator → OlcM sizes Sought
  | 0, _, _, _, _ => Prog.throw .outOfFuel
  | rounds + 1, node, parentCs, remainingKey, it => do
    match ← tryReadLock (.node node.addr) with
    | none => return (it, none)
    | some nodeCs =>
      if ← check parentCs then
        if node.type = .leaf then
          -- The source checks the parent a second time in this branch.
          if ← check parentCs then seekLeaf fuel k fwd node nodeCs it else return (it, none)
        else
          -- The prefix is read as a whole (`get_snapshot`).
          let keyPrefix ← reading [nodeCs] node (·.keyPrefix)
          let sharedLength := keyPrefix.getSharedLength (ArtKey.getU64 remainingKey)
          if sharedLength < keyPrefix.length then
            let keyByte ← Prog.lift (ArtKey.byteAt remainingKey sharedLength)
            let prefixByte ← Prog.lift (keyPrefix.byteAt sharedLength)
            Prog.lift (assertThat (keyByte ≠ prefixByte))
            seekFork fuel fwd keyByte prefixByte node parentCs nodeCs it
          else
            let remainingKey ← Prog.lift (ArtKey.shiftRight remainingKey keyPrefix.length)
            let keyByte ← Prog.lift (ArtKey.byteAt remainingKey 0)
            match ← reading [nodeCs] node (·.findChild keyByte) with
            | none => seekGap fuel fwd keyByte node parentCs nodeCs it
            | some (childIndex, i) =>
              -- The entry is pushed before the child is known to be valid; a failed check discards
              -- the iterator.
              let it ← Prog.lift (it.tryPush node ⟨keyByte, childIndex, keyPrefix⟩ nodeCs)
              let child ← loadChild nodeCs (.child node.addr i)
              let remainingKey ← Prog.lift (ArtKey.shiftRight remainingKey 1)
              if ← check nodeCs then
                let child ← Prog.lift (child.elim (.error .badAccess) .ok)
                seekLoop fuel k fwd rounds child nodeCs remainingKey it
              else return (it, none)
      else return (it, none)

/-- `try_seek`. -/
def trySeek (fuel : Nat) (k : κ) (fwd : Bool) (it : OlcIterator) : OlcM sizes Sought := do
  let it := it.invalidate
  match ← tryReadLock .root with
  | none => return (it, none)
  | some parentCs =>
    match ← loadRoot with
    | none => if ← check parentCs then return (it, some false) else return (it, none)
    | some node =>
      if ← check parentCs then seekLoop fuel k fwd (ArtKey.size k + 1) node parentCs k it
      else return (it, none)

end

/-! ## 4. Retry loops -/

/-- What an operation returns: the value found, whether an update changed the tree, or `match`.
    The other operations of an iterator only move it. -/
inductive Response where
  | found (value : Option (List UInt8))
  | updated (changed : Bool)
  | sought (exactMatch : Bool)
  | moved
deriving DecidableEq

/-- How an attempt leaves its operation: to be tried again, or done. -/
inductive Progress (T : Type) where
  | again (rest : T)
  | done (response : Response)

/-- What an operation of an iterator has still to do. -/
inductive IterOperation (κ : Type) where
  /-- `first` and `last`. -/
  | outermost (fwd : Bool)
  /-- `next` and `prior`. -/
  | advance (fwd : Bool)
  /-- `next` and `prior` after a failed attempt: back to the key of the leaf the iterator was on. -/
  | resume (fwd : Bool) (akey : κ)
  | seek (searchKey : κ) (fwd : Bool)

/-- An attempt with an iterator, and where the iterator comes to be. -/
def IterOperation.attempt {κ : Type} [StoredKey κ] (fuel : Nat) (it : OlcIterator) :
    IterOperation κ → OlcM sizes (OlcIterator × Progress (IterOperation κ))
  | .outermost fwd => do
    let (it, ok) ← tryOutermost fuel fwd it
    return (it, if ok then .done .moved else .again (.outermost fwd))
  | .advance fwd =>
    match it.stack with
    | [] => return (it, .done .moved)
    | e :: stack => do
      Prog.lift (assertThat (e.node.type = .leaf))
      -- The key is kept for the case that the attempt fails.
      let akey ← readKey e.node
      let (it, ok) ← tryAdvance fuel fwd (e :: stack) it.keybuf
      -- The attempt may have moved the iterator; the next one starts from the key.
      return (it, if ok then .done .moved else .again (.resume fwd (StoredKey.ofKeyView akey)))
  | .resume fwd akey => do
    match ← trySeek fuel akey fwd it with
    | (it, none) => return (it, .again (.resume fwd akey))
    -- The key is gone, and the iterator is already beyond it.
    | (it, some false) => return (it, .done .moved)
    | (it, some true) =>
      -- The key is still there: on from it.
      let (it, ok) ← tryAdvance fuel fwd it.stack it.keybuf
      return (it, if ok then .done .moved else .again (.resume fwd akey))
  | .seek searchKey fwd => do
    match ← trySeek fuel searchKey fwd it with
    | (it, none) => return (it, .again (.seek searchKey fwd))
    | (it, some m) => return (it, .done (.sought m))

/-- An operation with an iterator: attempts until one of them is done. -/
def IterOperation.run {κ : Type} [StoredKey κ] (fuel : Nat) :
    Nat → OlcIterator → IterOperation κ → OlcM sizes (OlcIterator × Response)
  | 0, _, _ => Prog.throw .outOfFuel
  | rounds + 1, it, op => do
    match ← op.attempt fuel it with
    | (it, .again op) => op.run fuel rounds it
    | (it, .done response) => return (it, response)

end OlcDb

end Unodb
