import Unodb.Qsbr.State
import Unodb.Util.Runs
import Mathlib.Data.Fintype.Basic

/-!
# Quiescent-state based reclamation (`qsbr.hpp`, `qsbr.cpp`)

Threads that register, pass through quiescent states, request deallocations and unregister.  Every
step is one access to the shared state (the state word, an orphan list, a node of one, the epoch
change counter) or one deallocation, with the local computation that follows it, and the steps of
all threads interleave in any order.
-/

namespace Unodb

/-- `deallocation_request`. -/
structure DeallocationRequest where
  pointer : Nat
  requestEpoch : Epoch
deriving DecidableEq, Repr

/-- A deallocation that the running call is about to make: of a request in a `deferred_requests`
    object, with the arguments of the object, or of a pointer. -/
inductive Deferred where
  | request (r : DeallocationRequest) (orphan : Bool) (deallocEpoch : Option Epoch)
      (singleThreadMode : Option Bool)
  | pointer (pointer : Nat)
deriving DecidableEq, Repr

namespace Deferred

/-- What is passed to `qsbr::deallocate`. -/
def target : Deferred → Nat
  | .request r _ _ _ => r.pointer
  | .pointer p => p

/-- The assertion of `deallocation_request::deallocate`. -/
def asserted : Deferred → Bool
  | .request r orphan deallocEpoch singleThreadMode =>
    match deallocEpoch, singleThreadMode with
    | none, none => orphan
    | some e, some single =>
      !orphan && ((single && e = r.requestEpoch.advance 1) || e = r.requestEpoch.advance 2)
    | _, _ => false
  | .pointer _ => true

end Deferred

/-- `dealloc_vector_list_node`. -/
structure ListNode where
  requests : List DeallocationRequest := []
  next : Option Nat := none

/-- The two orphan lists, and the requests and list nodes of a thread that go to each. -/
inductive Interval where
  | previous
  | current
deriving DecidableEq, Repr

/-- What is left to do in `epoch_change_barrier_and_handle_orphans`. -/
inductive HandleOrphans where
  | takePrevious
  | takeCurrent (orphanedPrevious : Option Nat)
  | freePrevious (list orphanedCurrent : Option Nat)
  | attach (orphanedCurrent : Option Nat)
  | walk (newPrevious : Nat) (orphanedCurrent : Option Nat)
  | append (newPrevious : Nat) (orphanedCurrent : Option Nat)
  | freeCurrent (list : Option Nat)
deriving DecidableEq, Repr

/-- Who called it: `change_epoch` in `quiescent`, which has found `singleThreadMode`, or
    `unregister_thread`, which has loaded `oldState`. -/
inductive Caller where
  | changeEpoch (currentGlobalEpoch : Epoch) (singleThreadMode : Bool)
  | unregisterThread (oldState : BitVec 64)
deriving DecidableEq, Repr

/-- Where a thread is, with the local variables that are used later. -/
inductive Pc where
  /-- Not registered, and no call is running. -/
  | paused
  | registerLoad
  | registerCas (oldState : BitVec 64)
  | registerSpin (oldEpoch : Epoch)
  /-- Registered, and no call is running. -/
  | idle
  | deallocateLoad (pointer : Nat)
  | quiescentLoad
  | removeFetchSub (currentGlobalEpoch : Epoch) (singleThreadMode : Bool)
  | handleOrphans (stage : HandleOrphans) (singleThreadMode : Bool) (caller : Caller)
  | changeLoad (currentGlobalEpoch : Epoch) (singleThreadMode : Bool)
  | changeCas (currentGlobalEpoch : Epoch) (singleThreadMode : Bool) (oldState : BitVec 64)
  | changeBumpLoad (currentGlobalEpoch : Epoch) (singleThreadMode : Bool)
  | changeBumpStore (currentGlobalEpoch : Epoch) (singleThreadMode : Bool) (count : Nat)
  | unregisterLoad
  | unregisterTry (oldState : BitVec 64) (epochChangePrepared : Bool)
  | unregisterBumpLoad (oldEpoch : Epoch) (singleThreadMode : Bool)
  | unregisterBumpStore (oldEpoch : Epoch) (singleThreadMode : Bool) (count : Nat)
  | orphanLoad (list : Interval)
  | orphanCas (list : Interval)
deriving DecidableEq, Repr

/-- Where `epoch_change_barrier_and_handle_orphans` returns to. -/
def Caller.next : Caller → Pc
  | .changeEpoch currentGlobalEpoch single => .changeLoad currentGlobalEpoch single
  | .unregisterThread oldState => .unregisterTry oldState true

/-- The registering compare-exchange has succeeded and the unregistering one has not. -/
def Pc.counted : Pc → Bool
  | .paused | .registerLoad | .registerCas _ => false
  | .unregisterBumpLoad .. | .unregisterBumpStore .. | .orphanLoad _ | .orphanCas _ => false
  | _ => true

/-- Between the `fetch_sub` that reached 0 and the compare-exchange that advances the epoch. -/
def Pc.changing : Pc → Bool
  | .handleOrphans _ _ (.changeEpoch ..) | .changeLoad .. | .changeCas .. => true
  | _ => false

/-- `qsbr_per_thread`, with the state of the running call.  `quiescent_states_since_epoch_change` is a
    64-bit word in the source. -/
structure QsbrPerThread where
  pc : Pc := .paused
  deferred : List Deferred := []
  previousIntervalOrphanListNode : Option Nat := none
  currentIntervalOrphanListNode : Option Nat := none
  quiescentStatesSinceEpochChange : Nat := 0
  lastSeenQuiescentStateEpoch : Epoch := .first
  lastSeenEpoch : Epoch := .first
  previousIntervalDeallocRequests : List DeallocationRequest := []
  currentIntervalDeallocRequests : List DeallocationRequest := []

/-- `qsbr`, the list nodes in memory and the pointers deallocated so far.  `epoch_change_count` is a
    64-bit word in the source. -/
structure Qsbr where
  state : BitVec 64 := 0
  orphanedPreviousIntervalDeallocRequests : Option Nat := none
  orphanedCurrentIntervalDeallocRequests : Option Nat := none
  epochChangeCount : Nat := 0
  nodes : Nat → Option ListNode := fun _ => none
  deallocated : List Nat := []

/-- What a step does to the count of the threads in the previous epoch. -/
inductive Mark where
  | nothing
  | joins (inPreviousEpoch : Bool)
  | passes
  | leaves
  | advances (leaves : Bool)
deriving DecidableEq, Repr

namespace QsbrPerThread

/-- `execute_previous_requests`. -/
def executePreviousRequests (t : QsbrPerThread) (singleThreadMode : Bool) (deallocEpoch : Epoch)
    (newCurrentRequests : List DeallocationRequest) : QsbrPerThread :=
  let defer (rs : List DeallocationRequest) : List Deferred :=
    rs.map fun r => .request r false (some deallocEpoch) (some singleThreadMode)
  -- The requests of the last interval are executed, and the others move up.
  if !singleThreadMode then
    { t with
      lastSeenEpoch := deallocEpoch
      deferred := defer t.previousIntervalDeallocRequests
      previousIntervalDeallocRequests := t.currentIntervalDeallocRequests
      currentIntervalDeallocRequests := newCurrentRequests }
  else
    -- No other thread is there to wait for, so both vectors are executed.
    { t with
      lastSeenEpoch := deallocEpoch
      deferred := defer t.currentIntervalDeallocRequests ++ defer t.previousIntervalDeallocRequests
      previousIntervalDeallocRequests := []
      currentIntervalDeallocRequests := newCurrentRequests }

/-- `advance_last_seen_epoch`. -/
def advanceLastSeenEpoch (t : QsbrPerThread) (singleThreadMode : Bool) (newSeenEpoch : Epoch)
    (newCurrentRequests : List DeallocationRequest) : Except Fault QsbrPerThread := do
  -- The epoch has been seen already; new requests are for another one then.
  if newSeenEpoch = t.lastSeenEpoch then return t
  else
    assertThat (newSeenEpoch = t.lastSeenEpoch.advance 1 ∨
      (!singleThreadMode ∧ newSeenEpoch = t.lastSeenEpoch.advance 2))
    return t.executePreviousRequests singleThreadMode newSeenEpoch newCurrentRequests

/-- The end of the constructor and of `qsbr_resume`, after `register_thread`. -/
def registered (t : QsbrPerThread) (epoch : Epoch) : QsbrPerThread :=
  { t with
    pc := .idle
    lastSeenQuiescentStateEpoch := epoch
    lastSeenEpoch := epoch
    quiescentStatesSinceEpochChange := 0 }

/-- `quiescent`, after `remove_thread_from_previous_epoch` has returned. -/
def quiescentFinish (t : QsbrPerThread) (singleThreadMode : Bool) (newGlobalEpoch : Epoch) :
    Except Fault QsbrPerThread := do
  assertThat (newGlobalEpoch = t.lastSeenQuiescentStateEpoch ∨
    newGlobalEpoch = t.lastSeenQuiescentStateEpoch.advance 1)
  if newGlobalEpoch ≠ t.lastSeenQuiescentStateEpoch then
    -- The epoch has changed by this call: the vectors move up here and not at the next load.
    assertThat (t.lastSeenEpoch.advance 1 = newGlobalEpoch)
    let t := { t with lastSeenQuiescentStateEpoch := newGlobalEpoch, pc := .idle }
    return t.executePreviousRequests singleThreadMode newGlobalEpoch []
  else
    return { t with
      quiescentStatesSinceEpochChange := t.quiescentStatesSinceEpochChange + 1, pc := .idle }

/-- The requests of an interval. -/
def requests (t : QsbrPerThread) : Interval → List DeallocationRequest
  | .previous => t.previousIntervalDeallocRequests
  | .current => t.currentIntervalDeallocRequests

/-- The list node of an interval. -/
def orphanListNode (t : QsbrPerThread) : Interval → Option Nat
  | .previous => t.previousIntervalOrphanListNode
  | .current => t.currentIntervalOrphanListNode

def clearRequests (t : QsbrPerThread) : Interval → QsbrPerThread
  | .previous => { t with previousIntervalDeallocRequests := [] }
  | .current => { t with currentIntervalDeallocRequests := [] }

def releaseNode (t : QsbrPerThread) : Interval → QsbrPerThread
  | .previous => { t with previousIntervalOrphanListNode := none }
  | .current => { t with currentIntervalOrphanListNode := none }

/-- What `orphan_pending_requests` goes on with after a list; in the end `qsbr_pause` returns. -/
def afterOrphan (t : QsbrPerThread) : Interval → Except Fault QsbrPerThread
  | .previous => .ok { t with pc := .orphanLoad .current }
  -- The list of the current interval comes last.
  | .current => do
    assertThat (t.previousIntervalOrphanListNode = none ∧ t.currentIntervalOrphanListNode = none)
    assertThat (t.previousIntervalDeallocRequests = [] ∧ t.currentIntervalDeallocRequests = [])
    return { t with pc := .paused }

end QsbrPerThread

namespace Qsbr

open QsbrState

/-- The head of an orphan list. -/
def orphanList (q : Qsbr) : Interval → Option Nat
  | .previous => q.orphanedPreviousIntervalDeallocRequests
  | .current => q.orphanedCurrentIntervalDeallocRequests

def setOrphanList (q : Qsbr) (list : Interval) (head : Option Nat) : Qsbr :=
  match list with
  | .previous => { q with orphanedPreviousIntervalDeallocRequests := head }
  | .current => { q with orphanedCurrentIntervalDeallocRequests := head }

def setNode (q : Qsbr) (i : Nat) (node : Option ListNode) : Qsbr :=
  { q with nodes := Function.update q.nodes i node }

/-- The node behind a pointer. -/
def node (q : Qsbr) (i : Nat) : Except Fault ListNode :=
  match q.nodes i with
  | some node => .ok node
  | none => .error .badAccess

/-- The result of a step: the shared state, the thread, and the mark. -/
abbrev Result := Qsbr × QsbrPerThread × Mark

/-- The body of the loop in `register_thread`. -/
def registerCas (q : Qsbr) (t : QsbrPerThread) (oldState : BitVec 64) (spurious : Bool) :
    Except Fault Result := do
  let oldEpoch ← getEpoch oldState
  let oldThreadCount ← getThreadCount oldState
  let oldThreadsInPreviousEpoch ← getThreadsInPreviousEpoch oldState
  if 0 < oldThreadsInPreviousEpoch ∨ oldThreadCount = 0 then
    let newState ← incThreadCountAndThreadsInPreviousEpoch oldState
    -- The exchange succeeds, unless another thread has changed the word or it fails spuriously.
    if q.state = oldState ∧ !spurious then
      return ({ q with state := newState }, t.registered oldEpoch, .joins true)
    else return (q, { t with pc := .registerCas q.state }, .nothing)
  else
    -- The epoch is being changed: the thread is counted, and waits for the new epoch.
    assertThat (oldThreadsInPreviousEpoch = 0)
    assertThat (0 < oldThreadCount)
    let newState ← incThreadCount oldState
    if q.state = oldState ∧ !spurious then
      return ({ q with state := newState }, { t with pc := .registerSpin oldEpoch }, .joins false)
    else return (q, { t with pc := .registerCas q.state }, .nothing)

/-- A round of the loop in which `register_thread` waits for the epoch change. -/
def registerSpin (q : Qsbr) (t : QsbrPerThread) (oldEpoch : Epoch) : Except Fault Result := do
  let newEpoch ← getEpoch q.state
  -- The thread has never been in the old epoch.
  if newEpoch ≠ oldEpoch then return (q, t.registered newEpoch, .nothing)
  else return (q, t, .nothing)

/-- `on_next_epoch_deallocate`. -/
def deallocateLoad (q : Qsbr) (t : QsbrPerThread) (pointer : Nat) : Except Fault Result := do
  let currentGlobalEpoch ← getEpoch q.state
  let singleThreadMode ← singleThreadMode q.state
  -- The only thread: nobody else can hold the pointer.
  if singleThreadMode then
    let t ← t.advanceLastSeenEpoch singleThreadMode currentGlobalEpoch []
    return (q, { t with deferred := t.deferred ++ [.pointer pointer], pc := .idle }, .nothing)
  -- The first request since the epoch changed; it starts the vector of its interval.
  else if t.lastSeenEpoch ≠ currentGlobalEpoch then
    let t ← t.advanceLastSeenEpoch singleThreadMode currentGlobalEpoch
      [⟨pointer, currentGlobalEpoch⟩]
    assertThat (t.currentIntervalDeallocRequests.length = 1)
    return (q, { t with pc := .idle }, .nothing)
  else
    return (q, { t with
      currentIntervalDeallocRequests :=
        t.currentIntervalDeallocRequests ++ [⟨pointer, t.lastSeenEpoch⟩]
      pc := .idle }, .nothing)

/-- `quiescent`, up to `remove_thread_from_previous_epoch`. -/
def quiescentLoad (q : Qsbr) (t : QsbrPerThread) : Except Fault Result := do
  let currentGlobalEpoch ← getEpoch q.state
  let singleThreadMode ← singleThreadMode q.state
  let t ← t.advanceLastSeenEpoch singleThreadMode currentGlobalEpoch []
  let t ← if currentGlobalEpoch ≠ t.lastSeenQuiescentStateEpoch then do
      assertThat (currentGlobalEpoch = t.lastSeenQuiescentStateEpoch.advance 1)
      pure { t with
        lastSeenQuiescentStateEpoch := currentGlobalEpoch
        quiescentStatesSinceEpochChange := 0 }
    else pure t
  assertThat (currentGlobalEpoch = t.lastSeenQuiescentStateEpoch)
  -- Only the first quiescent state in an epoch counts the thread down.
  if t.quiescentStatesSinceEpochChange = 0 then
    return (q, { t with pc := .removeFetchSub currentGlobalEpoch singleThreadMode }, .nothing)
  else
    return (q, { t with
      quiescentStatesSinceEpochChange := t.quiescentStatesSinceEpochChange + 1, pc := .idle },
      .nothing)

/-- `remove_thread_from_previous_epoch`, up to `change_epoch`. -/
def removeFetchSub (q : Qsbr) (t : QsbrPerThread) (currentGlobalEpoch : Epoch) (single : Bool) :
    Except Fault Result := do
  let oldState := q.state
  -- `fetch_sub`, by which the thread leaves the previous epoch.
  let q := { q with state := oldState - 1 }
  assertThat (0 < (← getThreadsInPreviousEpoch oldState))
  assertInvariants oldState
  let oldThreadsInPreviousEpoch ← getThreadsInPreviousEpoch oldState
  let oldSingleThreadMode ← singleThreadMode oldState
  assertThat (currentGlobalEpoch = (← getEpoch oldState))
  assertThat (t.lastSeenQuiescentStateEpoch = currentGlobalEpoch ∨
    t.lastSeenQuiescentStateEpoch.advance 1 = currentGlobalEpoch)
  -- Others are still in the previous epoch. The last one changes the epoch.
  if 1 < oldThreadsInPreviousEpoch then
    return (q, ← t.quiescentFinish single currentGlobalEpoch, .passes)
  else
    let caller : Caller := .changeEpoch currentGlobalEpoch single
    return (q, { t with pc := .handleOrphans .takePrevious oldSingleThreadMode caller }, .passes)

/-- A round of `free_orphan_list`: the requests of the first node are deallocated and the node is
    freed. -/
def freeListNode (q : Qsbr) (t : QsbrPerThread) (i : Nat) (pc : Option Nat → Pc) :
    Except Fault Result := do
  let node ← q.node i
  return (q.setNode i none,
    { t with deferred := node.requests.map fun r => .request r true none none, pc := pc node.next },
    .nothing)

/-- `epoch_change_barrier_and_handle_orphans`. -/
def handleOrphans (q : Qsbr) (t : QsbrPerThread) (stage : HandleOrphans) (single : Bool)
    (caller : Caller) : Except Fault Result :=
  let goOn (stage : HandleOrphans) : Pc := .handleOrphans stage single caller
  match stage with
  | .takePrevious =>
    .ok (q.setOrphanList .previous none,
      { t with pc := goOn (.takeCurrent (q.orphanList .previous)) }, .nothing)
  | .takeCurrent orphanedPrevious =>
    -- In single thread mode of the word before the `fetch_sub`.
    .ok (q.setOrphanList .current none,
      { t with pc := goOn (.freePrevious orphanedPrevious (q.orphanList .current)) }, .nothing)
  | .freePrevious none orphanedCurrent =>
    -- The list is at its end.
    .ok (q, { t with
      pc := goOn (if !single then .attach orphanedCurrent else .freeCurrent orphanedCurrent) },
      .nothing)
  | .freePrevious (some i) orphanedCurrent =>
    -- The previous list is freed node by node: no thread can hold these pointers any more.
    q.freeListNode t i fun next => goOn (.freePrevious next orphanedCurrent)
  -- The current list becomes the previous one. Threads may have put nodes there meanwhile.
  | .attach orphanedCurrent =>
    match q.orphanList .previous with
    | none => .ok (q.setOrphanList .previous orphanedCurrent, { t with pc := caller.next }, .nothing)
    | some newPrevious =>
      .ok (q, { t with pc := goOn (.walk newPrevious orphanedCurrent) }, .nothing)
  | .walk newPrevious orphanedCurrent => do
    match (← q.node newPrevious).next with
    | none => return (q, { t with pc := goOn (.append newPrevious orphanedCurrent) }, .nothing)
    | some next => return (q, { t with pc := goOn (.walk next orphanedCurrent) }, .nothing)
  | .append newPrevious orphanedCurrent => do
    -- The last node; its pointer has been read as null, and is stored without a further check.
    let node ← q.node newPrevious
    return (q.setNode newPrevious (some { node with next := orphanedCurrent }),
      { t with pc := caller.next }, .nothing)
  | .freeCurrent none => .ok (q, { t with pc := caller.next }, .nothing)
  | .freeCurrent (some i) => q.freeListNode t i fun next => goOn (.freeCurrent next)

/-- The body of the loop in `change_epoch`. -/
def changeCas (q : Qsbr) (t : QsbrPerThread) (currentGlobalEpoch : Epoch) (single : Bool)
    (oldState : BitVec 64) (spurious : Bool) : Except Fault Result := do
  -- No other thread changes the epoch meanwhile.
  assertThat (currentGlobalEpoch = (← getEpoch oldState))
  let newState ← incEpochResetPrevious oldState
  if q.state = oldState ∧ !spurious then
    assertThat (currentGlobalEpoch.advance 1 = (← getEpoch newState))
    -- The requests of this thread move up after the counter has been stored.
    return ({ q with state := newState },
      { t with pc := .changeBumpLoad currentGlobalEpoch single }, .advances false)
  else return (q, { t with pc := .changeCas currentGlobalEpoch single q.state }, .nothing)

/-- The body of the loop in `unregister_thread`. -/
def unregisterTry (q : Qsbr) (t : QsbrPerThread) (oldState : BitVec 64) (prepared spurious : Bool) :
    Except Fault Result := do
  let retry : Result := (q, { t with pc := .unregisterTry q.state prepared }, .nothing)
  let oldThreadsInPreviousEpoch ← getThreadsInPreviousEpoch oldState
  -- Another thread is changing the epoch; this one only goes.
  if oldThreadsInPreviousEpoch = 0 then
    assertThat (t.lastSeenQuiescentStateEpoch = (← getEpoch oldState))
    let newState ← decThreadCount oldState
    if q.state = oldState ∧ !spurious then
      return ({ q with state := newState }, { t with pc := .orphanLoad .previous }, .leaves)
    else return retry
  else
    let oldEpoch ← getEpoch oldState
    let oldSingleThreadMode ← singleThreadMode oldState
    -- It is still counted in the previous epoch: it has not passed through a quiescent state since.
    let removeThreadFromOldEpoch : Bool := t.lastSeenQuiescentStateEpoch ≠ oldEpoch ∨
      t.quiescentStatesSinceEpochChange = 0
    let advanceEpoch : Bool := removeThreadFromOldEpoch ∧ oldThreadsInPreviousEpoch = 1
    let newState ← if removeThreadFromOldEpoch then
        decThreadCountThreadsInPreviousEpochMaybeAdvance oldState advanceEpoch
      else decThreadCount oldState
    -- The orphans are handled before the exchange, and once, even if the exchange fails later.
    if advanceEpoch ∧ !prepared then
      let caller : Caller := .unregisterThread oldState
      return (q, { t with pc := .handleOrphans .takePrevious oldSingleThreadMode caller }, .nothing)
    else if q.state = oldState ∧ !spurious then
      -- With the word that was loaded before the orphans were handled.
      let t ← t.advanceLastSeenEpoch oldSingleThreadMode oldEpoch []
      if advanceEpoch then
        return ({ q with state := newState },
          { t with pc := .unregisterBumpLoad oldEpoch oldSingleThreadMode }, .advances true)
      else
        return ({ q with state := newState }, { t with pc := .orphanLoad .previous }, .leaves)
    else return retry

/-- `add_to_orphan_list`, up to its loop. -/
def orphanLoad (q : Qsbr) (t : QsbrPerThread) (list : Interval) : Except Fault Result := do
  match t.orphanListNode list with
  | none => throw .badAccess
  | some i =>
    -- Nothing to orphan: the list node goes back to the allocator.
    if t.requests list = [] then
      return (q.setNode i none, ← (t.releaseNode list).afterOrphan list, .nothing)
    else
      -- The requests go into the node, which is not in a list yet.
      return (q.setNode i (some ⟨t.requests list, q.orphanList list⟩),
        { t.clearRequests list with pc := .orphanCas list }, .nothing)

/-- The body of the loop in `add_to_orphan_list`. -/
def orphanCas (q : Qsbr) (t : QsbrPerThread) (list : Interval) (spurious : Bool) :
    Except Fault Result := do
  match t.orphanListNode list with
  | none => throw .badAccess
  | some i =>
    let node ← q.node i
    if q.orphanList list = node.next ∧ !spurious then
      return (q.setOrphanList list (some i), ← (t.releaseNode list).afterOrphan list, .nothing)
    -- The head has moved on, and the next round compares with the new one.
    else
      return (q.setNode i (some { node with next := q.orphanList list }), t, .nothing)

/-- The next step of a thread in a running call.  Deallocations come first; `spurious` is a
    compare-exchange that fails although the values are equal. -/
def go (q : Qsbr) (t : QsbrPerThread) (spurious : Bool) : Except Fault Result :=
  match t.deferred with
  | d :: rest => do
    assertThat (d.asserted)
    return ({ q with deallocated := d.target :: q.deallocated }, { t with deferred := rest }, .nothing)
  | [] =>
    match t.pc with
    | .paused | .idle => .ok (q, t, .nothing)
    | .registerLoad => .ok (q, { t with pc := .registerCas q.state }, .nothing)
    | .registerCas oldState => q.registerCas t oldState spurious
    | .registerSpin oldEpoch => q.registerSpin t oldEpoch
    | .deallocateLoad pointer => q.deallocateLoad t pointer
    | .quiescentLoad => q.quiescentLoad t
    | .removeFetchSub epoch single => q.removeFetchSub t epoch single
    | .handleOrphans stage single caller => q.handleOrphans t stage single caller
    | .changeLoad epoch single => .ok (q, { t with pc := .changeCas epoch single q.state }, .nothing)
    | .changeCas epoch single oldState => q.changeCas t epoch single oldState spurious
    | .changeBumpLoad epoch single =>
      .ok (q, { t with pc := .changeBumpStore epoch single q.epochChangeCount }, .nothing)
    | .changeBumpStore epoch single count => do
      return ({ q with epochChangeCount := count + 1 },
        ← t.quiescentFinish single (epoch.advance 1), .nothing)
    | .unregisterLoad => .ok (q, { t with pc := .unregisterTry q.state false }, .nothing)
    | .unregisterTry oldState prepared => q.unregisterTry t oldState prepared spurious
    | .unregisterBumpLoad epoch single =>
      .ok (q, { t with pc := .unregisterBumpStore epoch single q.epochChangeCount }, .nothing)
    | .unregisterBumpStore epoch single count =>
      .ok ({ q with epochChangeCount := count + 1 },
        { t.executePreviousRequests single (epoch.advance 1) [] with pc := .orphanLoad .previous },
        .nothing)
    | .orphanLoad list => q.orphanLoad t list
    | .orphanCas list => q.orphanCas t list spurious

end Qsbr

/-- The threads and what they share.  `inPreviousEpoch` and `requested` are kept for the proofs:
    who was counted in at the start of the epoch or has registered with it since, and has neither
    passed through a quiescent state nor left; and the pointers passed to
    `on_next_epoch_deallocate`. -/
structure QsbrSystem (ι : Type) where
  qsbr : Qsbr
  threads : ι → QsbrPerThread
  inPreviousEpoch : ι → Bool
  requested : List Nat

namespace QsbrSystem

variable {ι : Type} [DecidableEq ι]

def init : QsbrSystem ι where
  qsbr := {}
  threads _ := {}
  inPreviousEpoch _ := false
  requested := []

/-- What a thread does: it starts a call, or goes on with the one that is running. -/
inductive Action where
  /-- The constructor or `qsbr_resume`; the two list nodes are allocated. -/
  | register (previousNode currentNode : Nat)
  | deallocate (pointer : Nat)
  | quiescent
  /-- `qsbr_pause` or the destructor. -/
  | unregister
  | go (spurious : Bool)
deriving DecidableEq

/-- A call is started when no other one is running; new list nodes are at unused addresses. -/
def Allows (s : QsbrSystem ι) (i : ι) : Action → Prop
  | .register a b => (s.threads i).pc = .paused ∧ (s.threads i).deferred = [] ∧ a ≠ b ∧
      s.qsbr.nodes a = none ∧ s.qsbr.nodes b = none
  | .deallocate _ | .quiescent | .unregister =>
    (s.threads i).pc = .idle ∧ (s.threads i).deferred = []
  | .go _ => True

/-- The threads in the previous epoch after a step of one thread. -/
def marked (s : QsbrSystem ι) (i : ι) : Mark → ι → Bool
  | .nothing => s.inPreviousEpoch
  | .joins b => Function.update s.inPreviousEpoch i b
  | .passes | .leaves => Function.update s.inPreviousEpoch i false
  | .advances false => fun j => (s.threads j).pc.counted
  | .advances true => Function.update (fun j => (s.threads j).pc.counted) i false

def setPc (s : QsbrSystem ι) (i : ι) (pc : Pc) : QsbrSystem ι :=
  { s with threads := Function.update s.threads i { s.threads i with pc } }

/-- One step of one thread. -/
def act (s : QsbrSystem ι) (i : ι) : Action → Except Fault (QsbrSystem ι)
  | .register a b =>
    .ok { s with
      qsbr := (s.qsbr.setNode a (some {})).setNode b (some {})
      threads := Function.update s.threads i { s.threads i with
        pc := .registerLoad
        previousIntervalOrphanListNode := some a
        currentIntervalOrphanListNode := some b } }
  | .deallocate pointer =>
    .ok { s.setPc i (.deallocateLoad pointer) with requested := pointer :: s.requested }
  | .quiescent => .ok (s.setPc i .quiescentLoad)
  | .unregister => .ok (s.setPc i .unregisterLoad)
  | .go spurious => do
    let (q, t, mark) ← s.qsbr.go (s.threads i) spurious
    return { s with
      qsbr := q
      threads := Function.update s.threads i t
      inPreviousEpoch := s.marked i mark }

/-- A step of some thread. -/
def Step (s : QsbrSystem ι) (e : ι × Action) (s' : QsbrSystem ι) : Prop :=
  s.Allows e.1 e.2 ∧ s.act e.1 e.2 = .ok s'

end QsbrSystem

end Unodb
