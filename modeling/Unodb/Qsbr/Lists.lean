import Unodb.Qsbr.Count
import Unodb.Util.Linked
import Unodb.Util.Outcome
import Mathlib.Data.Multiset.Bind
import Mathlib.Tactic.Abel

/-!
# Where the requests of a thread are

The pointers that a thread holds in its vectors and in the local variables of its running call, the
list nodes it owns, and how each step moves them.
-/

namespace Unodb

open QsbrState

/-! ## 1. Places -/

/-- The pointers of some requests. -/
def pointersOf (rs : List DeallocationRequest) : Multiset Nat :=
  ↑(rs.map DeallocationRequest.pointer)

/-- The pointers in a list node. -/
def requestsAt (nodes : Nat → Option ListNode) (a : Nat) : Multiset Nat :=
  match nodes a with
  | some node => pointersOf node.requests
  | none => 0

namespace Pc

/-- The orphan lists that the local variables of the running call hold. -/
def heads : Pc → List (Option Nat)
  | .handleOrphans .takePrevious _ _ => []
  | .handleOrphans (.takeCurrent list) _ _ => [list]
  | .handleOrphans (.freePrevious list orphanedCurrent) _ _ => [list, orphanedCurrent]
  | .handleOrphans (.attach orphanedCurrent) _ _ => [orphanedCurrent]
  | .handleOrphans (.walk _ orphanedCurrent) _ _ => [orphanedCurrent]
  | .handleOrphans (.append _ orphanedCurrent) _ _ => [orphanedCurrent]
  | .handleOrphans (.freeCurrent list) _ _ => [list]
  | _ => []

/-- The pointer that `on_next_epoch_deallocate` was called with. -/
def argument : Pc → Multiset Nat
  | .deallocateLoad pointer => {pointer}
  | _ => 0

/-- `epoch_change_barrier_and_handle_orphans` is running. -/
def handling : Pc → Bool
  | .handleOrphans .. => true
  | _ => false

/-- The word that `unregister_thread` has loaded, unless it has prepared the epoch change. -/
def loaded : Pc → Option (BitVec 64)
  | .unregisterTry word false => some word
  | .handleOrphans _ _ (.unregisterThread word) => some word
  | _ => none

/-- The thread has both of its list nodes, empty, and the running call holds no list. -/
def plain : Pc → Bool
  | .paused | .orphanLoad .current | .orphanCas _ => false
  | .handleOrphans stage _ _ => stage = .takePrevious
  | _ => true

end Pc

namespace QsbrPerThread

/-- The pointers in the two vectors. -/
def vectors (t : QsbrPerThread) : Multiset Nat :=
  pointersOf t.previousIntervalDeallocRequests + pointersOf t.currentIntervalDeallocRequests

/-- The pointers in the local variables of the running call, its lists apart. -/
def locals (t : QsbrPerThread) : Multiset Nat :=
  ↑(t.deferred.map Deferred.target) + t.pc.argument

/-- The list nodes of the thread. -/
def ownNodes (t : QsbrPerThread) : List Nat :=
  t.previousIntervalOrphanListNode.toList ++ t.currentIntervalOrphanListNode.toList

end QsbrPerThread

/-- The node at which `epoch_change_barrier_and_handle_orphans` is in the list of the previous
    interval. -/
def WalkOk (P : List Nat) : Pc → Prop
  | .handleOrphans (.walk a _) _ _ => a ∈ P
  | .handleOrphans (.append a _) _ _ => P.getLast? = some a
  | _ => True

/-- The list nodes that a thread has at each point. -/
def NodesOk (t : QsbrPerThread) : Prop :=
  match t.pc with
  | .paused => t.previousIntervalOrphanListNode = none ∧ t.currentIntervalOrphanListNode = none
  | .orphanLoad .current | .orphanCas .current =>
    t.previousIntervalOrphanListNode = none ∧ ∃ a, t.currentIntervalOrphanListNode = some a
  | _ => (∃ a, t.previousIntervalOrphanListNode = some a) ∧
      ∃ a, t.currentIntervalOrphanListNode = some a

/-- The nodes `H` are those that thread `t` owns and those of the lists it holds; `P` are those of
    the orphan list of the previous interval. -/
structure ThreadLists (nodes : Nat → Option ListNode) (P : List Nat) (t : QsbrPerThread)
    (H : List Nat) : Prop where
  lists : ∃ ls, List.Forall₂ (IsList ListNode.next nodes) t.pc.heads ls ∧
    H = t.ownNodes ++ ls.flatten
  own : ∀ k a, t.orphanListNode k = some a →
    ∃ node, nodes a = some node ∧ (t.pc ≠ .orphanCas k → node.requests = [])
  walk : WalkOk P t.pc
  have_nodes : NodesOk t

/-! ## 2. Steps that touch no list -/

/-- A step that leaves the list nodes and the orphan lists as they are, and deallocates nothing. -/
structure Quiet (q : Qsbr) (t : QsbrPerThread) (r : Qsbr.Result) : Prop where
  nodes : r.1.nodes = q.nodes
  lists : ∀ k, r.1.orphanList k = q.orphanList k
  deallocated : r.1.deallocated = q.deallocated
  plain : r.2.1.pc.plain = true
  own : ∀ k, r.2.1.orphanListNode k = t.orphanListNode k
  pointers : r.2.1.vectors + r.2.1.locals = t.vectors + t.locals

/-- The pointers that a thread holds outside list nodes and arguments. -/
def QsbrPerThread.held (t : QsbrPerThread) : Multiset Nat :=
  t.vectors + ↑(t.deferred.map Deferred.target)

section Quiet

variable {q : Qsbr} {t : QsbrPerThread} {e : Epoch} {single : Bool} {rs : List DeallocationRequest}

theorem pointersOf_append (rs rs' : List DeallocationRequest) :
    pointersOf (rs ++ rs') = pointersOf rs + pointersOf rs' := by
  simp [pointersOf]

/-- `execute_previous_requests` moves the requests of the vectors. -/
theorem execute_held (single : Bool) (e : Epoch) (rs : List DeallocationRequest)
    (hd : t.deferred = []) :
    (t.executePreviousRequests single e rs).held = t.held + pointersOf rs := by
  have hdefer : ∀ rs : List DeallocationRequest,
      ((rs.map fun r => Deferred.request r false (some e) (some single)).map Deferred.target) =
        rs.map DeallocationRequest.pointer := by
    intro rs
    rw [List.map_map]
    rfl
  unfold QsbrPerThread.executePreviousRequests QsbrPerThread.held QsbrPerThread.vectors
  cases single with
  | false =>
    simp only [Bool.not_false, if_true, hdefer, hd, List.map_nil, Multiset.coe_nil, add_zero]
    rw [add_comm, ← add_assoc]
    rfl
  | true =>
    simp only [Bool.not_true, Bool.false_eq_true, if_false, hdefer, hd, List.map_nil,
      List.map_append, Multiset.coe_nil, add_zero, ← Multiset.coe_add]
    change 0 + pointersOf rs + (pointersOf _ + pointersOf _) = pointersOf _ + pointersOf _ + _
    rw [zero_add, add_comm, add_comm (pointersOf t.currentIntervalDeallocRequests)]

theorem execute_nodes (single : Bool) (e : Epoch) (rs : List DeallocationRequest) (k : Interval) :
    (t.executePreviousRequests single e rs).orphanListNode k = t.orphanListNode k := by
  unfold QsbrPerThread.executePreviousRequests
  cases single <;> cases k <;> rfl

theorem execute_pc : (t.executePreviousRequests single e rs).pc = t.pc := by
  unfold QsbrPerThread.executePreviousRequests
  cases single <;> rfl

/-- `advance_last_seen_epoch` moves requests too, or does nothing. -/
theorem advance_held (hd : t.deferred = []) (hrs : rs = [] ∨ e ≠ t.lastSeenEpoch) :
    Ensures (t.advanceLastSeenEpoch single e rs) fun t' => t'.held = t.held + pointersOf rs ∧
      t'.pc = t.pc ∧ ∀ k, t'.orphanListNode k = t.orphanListNode k := by
  unfold QsbrPerThread.advanceLastSeenEpoch
  apply Ensures.ite
  · intro heq
    have hnil : rs = [] := hrs.resolve_right (not_not.mpr heq)
    refine .pure ⟨?_, rfl, fun _ => rfl⟩
    rw [hnil]
    exact (add_zero _).symm
  · intro _
    exact .bind_any fun _ => .pure ⟨execute_held single e rs hd, execute_pc, execute_nodes single e rs⟩

/-- A step to another point of the code with the pointers where they are. -/
theorem Quiet.of_held {q' : Qsbr} {t' : QsbrPerThread} {mark : Mark} (hnodes : q'.nodes = q.nodes)
    (hlists : ∀ k, q'.orphanList k = q.orphanList k) (hdeallocated : q'.deallocated = q.deallocated)
    (hplain : t'.pc.plain = true) (hown : ∀ k, t'.orphanListNode k = t.orphanListNode k)
    (hheld : t'.held + t'.pc.argument = t.held + t.pc.argument) : Quiet q t (q', t', mark) := by
  refine ⟨hnodes, hlists, hdeallocated, hplain, hown, ?_⟩
  unfold QsbrPerThread.locals
  rw [← add_assoc, ← add_assoc]
  exact hheld

theorem Quiet.setPc {q' : Qsbr} {t' : QsbrPerThread} {mark : Mark} (harg : t.pc.argument = 0)
    (hnodes : q'.nodes = q.nodes) (hlists : ∀ k, q'.orphanList k = q.orphanList k)
    (hdeallocated : q'.deallocated = q.deallocated) (hplain : t'.pc.plain = true)
    (harg' : t'.pc.argument = 0) (hown : ∀ k, t'.orphanListNode k = t.orphanListNode k)
    (hheld : t'.held = t.held) : Quiet q t (q', t', mark) :=
  .of_held hnodes hlists hdeallocated hplain hown (by rw [hheld, harg, harg'])

theorem registerCas_quiet {word : BitVec 64} {spurious : Bool} (hpc : t.pc = .registerCas word) :
    Ensures (q.registerCas t word spurious) (Quiet q t) := by
  have harg : t.pc.argument = 0 := by rw [hpc]; rfl
  unfold Qsbr.registerCas
  refine .bind_any fun _ => .bind_any fun _ => .bind_any fun _ => .ite (fun _ => ?_) fun _ => ?_
  · refine .bind_any fun _ => .ite (fun _ => .pure ?_) fun _ => .pure ?_
    · exact .setPc harg rfl (fun k => by cases k <;> rfl) rfl rfl rfl (fun k => by cases k <;> rfl) rfl
    · exact .setPc harg rfl (fun _ => rfl) rfl rfl rfl (fun k => by cases k <;> rfl) rfl
  · refine .bind_any fun _ => .bind_any fun _ => .bind_any fun _ => .ite (fun _ => .pure ?_)
      fun _ => .pure ?_
    · exact .setPc harg rfl (fun k => by cases k <;> rfl) rfl rfl rfl (fun k => by cases k <;> rfl) rfl
    · exact .setPc harg rfl (fun _ => rfl) rfl rfl rfl (fun k => by cases k <;> rfl) rfl

theorem registerSpin_quiet (hpc : t.pc = .registerSpin e) :
    Ensures (q.registerSpin t e) (Quiet q t) := by
  have harg : t.pc.argument = 0 := by rw [hpc]; rfl
  unfold Qsbr.registerSpin
  refine .bind_any fun _ => .ite (fun _ => .pure ?_) fun _ => .pure ?_
  · exact .setPc harg rfl (fun _ => rfl) rfl rfl rfl (fun k => by cases k <;> rfl) rfl
  · exact .setPc harg rfl (fun _ => rfl) rfl (by rw [hpc]; rfl) harg (fun _ => rfl) rfl

theorem deallocateLoad_quiet {pointer : Nat} (hpc : t.pc = .deallocateLoad pointer)
    (hd : t.deferred = []) : Ensures (q.deallocateLoad t pointer) (Quiet q t) := by
  have harg : t.pc.argument = {pointer} := by rw [hpc]; rfl
  unfold Qsbr.deallocateLoad
  refine .bind_any fun e => .bind_any fun single => .ite (fun _ => ?_) fun _ =>
    .ite (fun hne => ?_) fun _ => .pure ?_
  · refine .bind (advance_held hd (.inl rfl)) ?_
    rintro t' ⟨hheld, -, hown⟩
    refine .pure (.of_held rfl (fun _ => rfl) rfl rfl (fun k => ?_) ?_)
    · rw [← hown k]
      cases k <;> rfl
    · rw [harg, ← add_zero t.held, ← show pointersOf [] = 0 from rfl, ← hheld]
      simp [QsbrPerThread.held, QsbrPerThread.vectors, Pc.argument, Deferred.target, ← Multiset.coe_add,
        add_assoc]
  · refine .bind (advance_held hd (.inr (Ne.symm hne))) ?_
    rintro t' ⟨hheld, -, hown⟩
    refine .bind_any fun _ => .pure (.of_held rfl (fun _ => rfl) rfl rfl (fun k => ?_) ?_)
    · rw [← hown k]
      cases k <;> rfl
    · rw [harg]
      exact (add_zero _).trans hheld
  · refine .of_held rfl (fun _ => rfl) rfl rfl (fun k => by cases k <;> rfl) ?_
    rw [harg]
    have hone : pointersOf [⟨pointer, t.lastSeenEpoch⟩] = {pointer} := rfl
    simp only [QsbrPerThread.held, QsbrPerThread.vectors, pointersOf_append, hd, Pc.argument, hone,
      List.map_nil, Multiset.coe_nil, add_zero, add_assoc]

theorem quiescentLoad_quiet (hpc : t.pc = .quiescentLoad) (hd : t.deferred = []) :
    Ensures (q.quiescentLoad t) (Quiet q t) := by
  have harg : t.pc.argument = 0 := by rw [hpc]; rfl
  unfold Qsbr.quiescentLoad
  refine .bind_any fun e => .bind_any fun single => .bind (advance_held hd (.inl rfl)) ?_
  rintro t₁ ⟨hheld, hpc₁, hown⟩
  have hheld' : t₁.held = t.held := hheld.trans (add_zero _)
  let Same (t₂ : QsbrPerThread) : Prop := t₂.held = t.held ∧
    ∀ k, t₂.orphanListNode k = t.orphanListNode k
  have hrest : ∀ t₂, Same t₂ → Ensures (do
      assertThat (e = t₂.lastSeenQuiescentStateEpoch)
      if t₂.quiescentStatesSinceEpochChange = 0 then
        return (q, { t₂ with pc := .removeFetchSub e single }, .nothing)
      else
        return (q, { t₂ with
          quiescentStatesSinceEpochChange := t₂.quiescentStatesSinceEpochChange + 1, pc := .idle },
          .nothing)) (Quiet q t) := by
    rintro t₂ ⟨hheld₂, hown₂⟩
    refine .bind_any fun _ => .ite (fun _ => .pure ?_) fun _ => .pure ?_
    · refine .setPc harg rfl (fun _ => rfl) rfl rfl rfl (fun k => ?_) hheld₂
      rw [← hown₂ k]
      cases k <;> rfl
    · refine .setPc harg rfl (fun _ => rfl) rfl rfl rfl (fun k => ?_) hheld₂
      rw [← hown₂ k]
      cases k <;> rfl
  have hsame : ∀ t₂, Same t₂ → Ensures (pure t₂ : Except Fault QsbrPerThread) Same :=
    fun _ h => .pure h
  refine .ite (fun _ => .bind_any fun _ => .bind (hsame _ ⟨hheld', fun k => ?_⟩) hrest)
    fun _ => .bind (hsame _ ⟨hheld', hown⟩) hrest
  rw [← hown k]
  cases k <;> rfl

theorem quiescentFinish_held (hd : t.deferred = []) :
    Ensures (t.quiescentFinish single e) fun t' => t'.held = t.held ∧ t'.pc = .idle ∧
      ∀ k, t'.orphanListNode k = t.orphanListNode k := by
  unfold QsbrPerThread.quiescentFinish
  refine .bind_any fun _ => .ite (fun _ => .bind_any fun _ => .pure ?_) fun _ => .pure ?_
  · have hheld := execute_held (t := { t with lastSeenQuiescentStateEpoch := e, pc := .idle })
      single e [] hd
    refine ⟨hheld.trans (add_zero _), execute_pc, fun k => ?_⟩
    rw [execute_nodes]
    cases k <;> rfl
  · exact ⟨rfl, rfl, fun k => by cases k <;> rfl⟩

theorem removeFetchSub_quiet (hpc : t.pc = .removeFetchSub e single) (hd : t.deferred = []) :
    Ensures (q.removeFetchSub t e single) (Quiet q t) := by
  have harg : t.pc.argument = 0 := by rw [hpc]; rfl
  unfold Qsbr.removeFetchSub
  refine .bind_any fun _ => .bind_any fun _ => .bind_any fun _ => .bind_any fun _ =>
    .bind_any fun _ => .bind_any fun _ => .bind_any fun _ => .bind_any fun _ =>
    .ite (fun _ => ?_) fun _ => .pure ?_
  · refine .bind (quiescentFinish_held hd) ?_
    rintro t' ⟨hheld, hpc', hown⟩
    exact .pure (.setPc harg rfl (fun k => by cases k <;> rfl) rfl (by rw [hpc']; rfl)
      (by rw [hpc']; rfl) hown hheld)
  · exact .setPc harg rfl (fun k => by cases k <;> rfl) rfl rfl rfl (fun k => by cases k <;> rfl) rfl

theorem changeCas_quiet {word : BitVec 64} {spurious : Bool} (hpc : t.pc = .changeCas e single word) :
    Ensures (q.changeCas t e single word spurious) (Quiet q t) := by
  have harg : t.pc.argument = 0 := by rw [hpc]; rfl
  unfold Qsbr.changeCas
  refine .bind_any fun _ => .bind_any fun _ => .bind_any fun _ => .ite (fun _ => ?_)
    fun _ => .pure ?_
  · exact .bind_any fun _ => .bind_any fun _ => .pure (.setPc harg rfl
      (fun k => by cases k <;> rfl) rfl rfl rfl (fun k => by cases k <;> rfl) rfl)
  · exact .setPc harg rfl (fun _ => rfl) rfl rfl rfl (fun k => by cases k <;> rfl) rfl

theorem unregisterTry_quiet {word : BitVec 64} {prepared spurious : Bool}
    (hpc : t.pc = .unregisterTry word prepared) (hd : t.deferred = []) :
    Ensures (q.unregisterTry t word prepared spurious) (Quiet q t) := by
  have harg : t.pc.argument = 0 := by rw [hpc]; rfl
  have hretry : Quiet q t (q, { t with pc := .unregisterTry q.state prepared }, .nothing) :=
    .setPc harg rfl (fun _ => rfl) rfl rfl rfl (fun k => by cases k <;> rfl) rfl
  unfold Qsbr.unregisterTry
  refine .bind_any fun _ => .ite (fun _ => ?_) fun _ => ?_
  · refine .bind_any fun _ => .bind_any fun _ => .bind_any fun _ => .ite (fun _ => .pure ?_)
      fun _ => .pure hretry
    exact .setPc harg rfl (fun k => by cases k <;> rfl) rfl rfl rfl (fun k => by cases k <;> rfl) rfl
  · refine .bind_any fun _ => .bind_any fun _ => ?_
    -- After the new state has been computed, either way.
    have hrest : ∀ {c c' c'' : Prop} [Decidable c] [Decidable c'] [Decidable c'']
        (single : Bool) (e : Epoch) (caller : Caller) (newState : BitVec 64),
        Ensures (if c then pure (q, { t with pc := .handleOrphans .takePrevious single caller },
            .nothing)
          else if c' then do
            let t ← t.advanceLastSeenEpoch single e []
            if c'' then
              return ({ q with state := newState },
                { t with pc := .unregisterBumpLoad e single }, .advances true)
            else
              return ({ q with state := newState }, { t with pc := .orphanLoad .previous }, .leaves)
          else pure (q, { t with pc := .unregisterTry q.state prepared }, .nothing) :
            Except Fault Qsbr.Result) (Quiet q t) := by
      intro c c' c'' _ _ _ single e caller newState
      refine .ite (fun _ => .pure ?_) fun _ => .ite (fun _ => .bind (advance_held hd (.inl rfl)) ?_)
        fun _ => .pure hretry
      · exact .setPc harg rfl (fun _ => rfl) rfl rfl rfl (fun k => by cases k <;> rfl) rfl
      · rintro t' ⟨hheld, -, hown⟩
        have hheld' : t'.held = t.held := hheld.trans (add_zero _)
        have hown' : ∀ (pc : Pc) k, QsbrPerThread.orphanListNode { t' with pc } k =
            t.orphanListNode k := by
          intro pc k
          rw [← hown k]
          cases k <;> rfl
        refine .ite (fun _ => .pure ?_) fun _ => .pure ?_
        · exact .setPc harg rfl (fun k => by cases k <;> rfl) rfl rfl rfl (hown' _) hheld'
        · exact .setPc harg rfl (fun k => by cases k <;> rfl) rfl rfl rfl (hown' _) hheld'
    refine .ite (fun _ => .bind_any fun _ => hrest _ _ _ _) fun _ => .bind_any fun _ => hrest _ _ _ _

end Quiet

/-! ## 3. Where a step moves requests and nodes -/

/-- The pointers in some list nodes. -/
def requestsIn (nodes : Nat → Option ListNode) (m : Multiset Nat) : Multiset Nat :=
  m.bind (requestsAt nodes)

/-- The orphan lists have the nodes `P` and `C`, the thread has `H`, and no node is in two places. -/
structure Local (q : Qsbr) (t : QsbrPerThread) (P C H : List Nat) : Prop where
  previous : IsList ListNode.next q.nodes (q.orphanList .previous) P
  current : IsList ListNode.next q.nodes (q.orphanList .current) C
  thread : ThreadLists q.nodes P t H
  nodup : (↑P + ↑C + ↑H : Multiset Nat).Nodup

/-- A step of a thread moves its requests and nodes and those of the orphan lists, touches no other
    nodes, and puts nodes only before those of the list of the previous interval, unless it takes
    that list. -/
structure Moves (q : Qsbr) (t : QsbrPerThread) (P C H : List Nat) (q' : Qsbr) (t' : QsbrPerThread)
    (P' C' H' : List Nat) : Prop where
  previous : IsList ListNode.next q'.nodes (q'.orphanList .previous) P'
  current : IsList ListNode.next q'.nodes (q'.orphanList .current) C'
  thread : ThreadLists q'.nodes P' t' H'
  le : (↑P' + ↑C' + ↑H' : Multiset Nat) ≤ ↑P + ↑C + ↑H
  frame : ∀ a, a ∉ (↑P + ↑C + ↑H : Multiset Nat) → q'.nodes a = q.nodes a
  requests : ↑q'.deallocated + (t'.vectors + t'.locals) + requestsIn q'.nodes (↑P' + ↑C' + ↑H') =
    ↑q.deallocated + (t.vectors + t.locals) + requestsIn q.nodes (↑P + ↑C + ↑H)
  suffix : t.pc.handling = false → P <:+ P'

section Moves

variable {q q' : Qsbr} {t t' : QsbrPerThread} {P C H P' C' H' : List Nat}
  {nodes nodes' : Nat → Option ListNode}

theorem requestsIn_congr {m : Multiset Nat} (h : ∀ a ∈ m, nodes' a = nodes a) :
    requestsIn nodes' m = requestsIn nodes m := by
  apply Multiset.bind_congr
  intro a ha
  rw [requestsAt, requestsAt, h a ha]

theorem requestsIn_add (m m' : Multiset Nat) :
    requestsIn nodes (m + m') = requestsIn nodes m + requestsIn nodes m' :=
  Multiset.add_bind m m' _

theorem requestsIn_cons (a : Nat) (m : Multiset Nat) :
    requestsIn nodes (a ::ₘ m) = requestsAt nodes a + requestsIn nodes m :=
  Multiset.cons_bind a m _

theorem heads_of_plain {pc : Pc} (h : pc.plain = true) : pc.heads = [] := by
  unfold Pc.plain at h
  cases pc with
  | handleOrphans stage single caller =>
    have hstage : stage = .takePrevious := by simpa using h
    rw [hstage]
    rfl
  | _ => rfl

theorem walkOk_of_plain {pc : Pc} (h : pc.plain = true) : WalkOk P pc := by
  unfold Pc.plain at h
  cases pc with
  | handleOrphans stage single caller =>
    have hstage : stage = .takePrevious := by simpa using h
    rw [hstage]
    trivial
  | _ => trivial

theorem nodesOk_of_plain (h : t.pc.plain = true) : NodesOk t ↔
    (∃ a, t.orphanListNode .previous = some a) ∧ ∃ a, t.orphanListNode .current = some a := by
  unfold NodesOk
  cases hpc : t.pc with
  | paused | orphanCas =>
    rw [hpc] at h
    exact absurd h Bool.false_ne_true
  | orphanLoad list =>
    cases list with
    | previous => rfl
    | current =>
      rw [hpc] at h
      exact absurd h Bool.false_ne_true
  | _ => rfl

theorem ne_orphanCas_of_plain {pc : Pc} (h : pc.plain = true) (k : Interval) :
    pc ≠ .orphanCas k := by
  rintro rfl
  exact absurd h Bool.false_ne_true

theorem ownNodes_congr (h : ∀ k, t'.orphanListNode k = t.orphanListNode k) :
    t'.ownNodes = t.ownNodes := by
  have hprevious : t'.previousIntervalOrphanListNode = t.previousIntervalOrphanListNode :=
    h .previous
  have hcurrent : t'.currentIntervalOrphanListNode = t.currentIntervalOrphanListNode := h .current
  rw [QsbrPerThread.ownNodes, QsbrPerThread.ownNodes, hprevious, hcurrent]

theorem mem_ownNodes {k : Interval} {a : Nat} (ha : t.orphanListNode k = some a) :
    a ∈ t.ownNodes := by
  cases k with
  | previous =>
    have hsome : t.previousIntervalOrphanListNode = some a := ha
    simp [QsbrPerThread.ownNodes, hsome]
  | current =>
    have hsome : t.currentIntervalOrphanListNode = some a := ha
    simp [QsbrPerThread.ownNodes, hsome]

theorem exists_of_mem_ownNodes {a : Nat} (ha : a ∈ t.ownNodes) :
    ∃ k, t.orphanListNode k = some a := by
  rcases List.mem_append.mp ha with ha | ha
  · exact ⟨.previous, Option.mem_toList.mp ha⟩
  · exact ⟨.current, Option.mem_toList.mp ha⟩

/-- A thread that holds no list goes on, with the same nodes. -/
theorem ThreadLists.of_plain (h : ThreadLists nodes P t H) (hplain : t.pc.plain = true)
    (hplain' : t'.pc.plain = true) (hown : ∀ k, t'.orphanListNode k = t.orphanListNode k) :
    ThreadLists nodes P t' H := by
  obtain ⟨⟨ls, hls, hH⟩, hownOk, -, hhave⟩ := h
  rw [heads_of_plain hplain] at hls
  cases hls
  refine ⟨⟨[], ?_, ?_⟩, ?_, walkOk_of_plain hplain', ?_⟩
  · rw [heads_of_plain hplain']
    exact .nil
  · rw [ownNodes_congr hown]
    exact hH
  · intro k a ha
    rw [hown] at ha
    obtain ⟨node, hnode, hempty⟩ := hownOk k a ha
    exact ⟨node, hnode, fun _ => hempty (ne_orphanCas_of_plain hplain k)⟩
  · rw [nodesOk_of_plain hplain', hown, hown]
    exact (nodesOk_of_plain hplain).mp hhave

/-- Steps that touch no list. -/
theorem Quiet.moves {mark : Mark} (h : Local q t P C H) (hplain : t.pc.plain = true)
    (hquiet : Quiet q t (q', t', mark)) : Moves q t P C H q' t' P C H := by
  obtain ⟨hnodes, hlists, hdeallocated, hplain', hown, hpointers⟩ := hquiet
  simp only at hnodes hlists hdeallocated hplain' hown hpointers
  refine ⟨?_, ?_, ?_, le_rfl, ?_, ?_, fun _ => List.suffix_rfl⟩
  · rw [hnodes, hlists]
    exact h.previous
  · rw [hnodes, hlists]
    exact h.current
  · rw [hnodes]
    exact h.thread.of_plain hplain hplain' hown
  · exact fun a _ => congrFun hnodes a
  · rw [hdeallocated, hpointers, hnodes]

/-- A deallocation. -/
theorem deallocate_moves {d : Deferred} {rest : List Deferred} (h : Local q t P C H)
    (hd : t.deferred = d :: rest) :
    Moves q t P C H { q with deallocated := d.target :: q.deallocated }
      { t with deferred := rest } P C H := by
  refine ⟨h.previous, h.current, ⟨h.thread.lists, ?_, h.thread.walk, h.thread.have_nodes⟩, le_rfl,
    fun _ _ => rfl, ?_, fun _ => List.suffix_rfl⟩
  · intro k a ha
    exact h.thread.own k a (by rw [← ha]; cases k <;> rfl)
  · simp only [QsbrPerThread.locals, QsbrPerThread.vectors, hd, List.map_cons,
      ← Multiset.cons_coe, ← Multiset.singleton_add]
    abel

/-! ## 4. `epoch_change_barrier_and_handle_orphans` -/

/-- The lists of the running call change, and the nodes of the thread do not. -/
theorem ThreadLists.setLists {pc : Pc} {ds : List Deferred} {ls : List (List Nat)}
    (h : ThreadLists nodes P t H) (hhandling : t.pc.handling = true)
    (hframe : ∀ a ∈ t.ownNodes, nodes' a = nodes a)
    (hhave : NodesOk t → NodesOk { t with pc, deferred := ds })
    (hls : List.Forall₂ (IsList ListNode.next nodes') pc.heads ls) (hwalk : WalkOk P' pc) :
    ThreadLists nodes' P' { t with pc, deferred := ds } (t.ownNodes ++ ls.flatten) := by
  refine ⟨⟨ls, hls, rfl⟩, ?_, hwalk, hhave h.have_nodes⟩
  intro k a ha
  have ha' : t.orphanListNode k = some a := by
    rw [← ha]
    cases k <;> rfl
  obtain ⟨node, hnode, hempty⟩ := h.own k a ha'
  refine ⟨node, (hframe a (mem_ownNodes ha')).trans hnode, fun _ => hempty ?_⟩
  intro hpc
  rw [hpc] at hhandling
  exact absurd hhandling Bool.false_ne_true

/-- The call holds other lists, with the same nodes and requests in all places together. -/
theorem rotate_moves {pc : Pc} (ls : List (List Nat)) (h : Local q t P C H)
    (hhandling : t.pc.handling = true) (hhave : NodesOk t → NodesOk { t with pc }) (harg : pc.argument = 0)
    (hnodes : q'.nodes = q.nodes) (hdeallocated : q'.deallocated = q.deallocated)
    (hprevious : IsList ListNode.next q.nodes (q'.orphanList .previous) P')
    (hcurrent : IsList ListNode.next q.nodes (q'.orphanList .current) C')
    (hls : List.Forall₂ (IsList ListNode.next q.nodes) pc.heads ls) (hwalk : WalkOk P' pc)
    (hall : (↑P' + ↑C' + ↑(t.ownNodes ++ ls.flatten) : Multiset Nat) = ↑P + ↑C + ↑H) :
    Moves q t P C H q' { t with pc } P' C' (t.ownNodes ++ ls.flatten) := by
  have harg' : t.pc.argument = 0 := by
    cases hpc : t.pc with
    | deallocateLoad =>
      rw [hpc] at hhandling
      exact absurd hhandling Bool.false_ne_true
    | _ => rfl
  refine ⟨hnodes ▸ hprevious, hnodes ▸ hcurrent, ?_, hall.le, fun a _ => congrFun hnodes a, ?_, ?_⟩
  · rw [hnodes]
    exact h.thread.setLists hhandling (fun _ _ => rfl) hhave hls hwalk
  · rw [hall, hnodes, hdeallocated]
    simp only [QsbrPerThread.locals, QsbrPerThread.vectors, harg, harg']
  · exact fun hfalse => absurd (hhandling.symm.trans hfalse) (by decide)

/-- The first node of a list that the call holds is freed. -/
theorem free_moves (pc : Option Nat → Pc) {i : Nat} {l : List Nat} {ls : List (List Nat)}
    (h : Local q t P C H) (hhandling : t.pc.handling = true) (hd : t.deferred = [])
    (hH : H = t.ownNodes ++ ((i :: l) :: ls).flatten)
    (hhave : ∀ o ds, NodesOk t → NodesOk { t with pc := pc o, deferred := ds })
    (harg : ∀ o, (pc o).argument = 0) (hwalk : ∀ o, WalkOk P (pc o))
    (hlist : IsList ListNode.next q.nodes (some i) (i :: l))
    (hls : ∀ o nodes', (∀ a ∈ ls.flatten, nodes' a = q.nodes a) →
      IsList ListNode.next nodes' o l →
      List.Forall₂ (IsList ListNode.next nodes') (pc o).heads (l :: ls)) :
    ∃ t' , q.freeListNode t i pc = .ok (q.setNode i none, t', .nothing) ∧
      Moves q t P C H (q.setNode i none) t' P C (t.ownNodes ++ (l :: ls).flatten) := by
  cases hlist with
  | @cons _ node _ hnode hrest =>
    have harg' : t.pc.argument = 0 := by
      cases hpc : t.pc with
      | deallocateLoad =>
        rw [hpc] at hhandling
        exact absurd hhandling Bool.false_ne_true
      | _ => rfl
    have hall : (↑P + ↑C + ↑H : Multiset Nat) =
        i ::ₘ (↑P + ↑C + ↑(t.ownNodes ++ (l :: ls).flatten)) := by
      rw [hH]
      simp only [List.flatten_cons, List.cons_append, ← Multiset.coe_add, ← Multiset.cons_coe,
        ← Multiset.singleton_add]
      abel
    have hnodup := h.nodup
    rw [hall, Multiset.nodup_cons] at hnodup
    have hframe : ∀ a ∈ (↑P + ↑C + ↑(t.ownNodes ++ (l :: ls).flatten) : Multiset Nat),
        (q.setNode i none).nodes a = q.nodes a := by
      intro a ha
      apply Function.update_of_ne
      rintro rfl
      exact hnodup.1 ha
    have hframe' := hframe
    simp only [Multiset.mem_add, Multiset.mem_coe, List.flatten_cons, List.mem_append] at hframe
    refine ⟨_, by rw [Qsbr.freeListNode, Qsbr.node, hnode]; rfl, ?_⟩
    refine ⟨h.previous.congr fun a ha => hframe a (by simp [ha]),
      h.current.congr fun a ha => hframe a (by simp [ha]), ?_, ?_, ?_, ?_, ?_⟩
    · refine h.thread.setLists hhandling (fun a ha => hframe a (by simp [ha])) (hhave _ _)
        (hls _ _ (fun a ha => hframe a (by simp [ha])) ?_) (hwalk _)
      exact hrest.congr fun a ha => hframe a (by simp [ha])
    · rw [hall]
      exact Multiset.le_cons_self _ _
    · intro a ha
      apply Function.update_of_ne
      rintro rfl
      rw [hall] at ha
      exact ha (Multiset.mem_cons_self _ _)
    · have hat : requestsAt q.nodes i = pointersOf node.requests := by rw [requestsAt, hnode]
      have hdefer : ((node.requests.map fun r => Deferred.request r true none none).map
          Deferred.target) = node.requests.map DeallocationRequest.pointer := by
        rw [List.map_map]
        rfl
      rw [hall, requestsIn_cons, hat, ← requestsIn_congr hframe']
      simp only [QsbrPerThread.locals, QsbrPerThread.vectors, hdefer, hd, harg, harg', List.map_nil,
        Multiset.coe_nil, Qsbr.setNode]
      change _ + (_ + (pointersOf node.requests + 0)) + _ = _
      abel
    · exact fun hfalse => absurd (hhandling.symm.trans hfalse) (by decide)

/-- The last node of the list of the previous interval is made to point to the list that the call
    holds. -/
theorem append_moves {pc : Pc} {b : Nat} {c : Option Nat} {l : List Nat} {node : ListNode}
    (h : Local q t P C H) (hhandling : t.pc.handling = true)
    (hhave : NodesOk t → NodesOk { t with pc }) (harg : pc.argument = 0) (hheads : pc.heads = [])
    (hwalk : ∀ P', WalkOk P' pc) (hH : H = t.ownNodes ++ [l].flatten)
    (hlist : IsList ListNode.next q.nodes c l) (hlast : P.getLast? = some b)
    (hnode : q.nodes b = some node) :
    Moves q t P C H (q.setNode b (some { node with next := c })) { t with pc } (P ++ l) C
      (t.ownNodes ++ [].flatten) := by
  have hmem : b ∈ P := List.mem_of_getLast? hlast
  have hall : (↑(P ++ l) + ↑C + ↑(t.ownNodes ++ ([] : List (List Nat)).flatten) : Multiset Nat) =
      ↑P + ↑C + ↑H := by
    rw [hH]
    simp only [List.flatten_cons, List.flatten_nil, List.append_nil, ← Multiset.coe_add]
    abel
  have hnodup := h.nodup
  rw [Multiset.nodup_add, Multiset.nodup_add] at hnodup
  obtain ⟨⟨hP, -, hPC⟩, -, hPCH⟩ := hnodup
  have hne : ∀ a ∈ (↑C + ↑H : Multiset Nat), a ≠ b := by
    rintro a ha rfl
    rcases Multiset.mem_add.mp ha with ha | ha
    · exact (Multiset.disjoint_left.mp hPC) hmem ha
    · exact (Multiset.disjoint_left.mp hPCH) (Multiset.mem_add.mpr (.inl hmem)) ha
  have hnotMem : b ∉ l := by
    intro hb
    refine hne b ?_ rfl
    rw [hH]
    simp [hb]
  have hsame : ∀ a, a ≠ b → (q.setNode b (some { node with next := c })).nodes a = q.nodes a :=
    fun a ha => Function.update_of_ne ha _ _
  have harg' : t.pc.argument = 0 := by
    cases hpc : t.pc with
    | deallocateLoad =>
      rw [hpc] at hhandling
      exact absurd hhandling Bool.false_ne_true
    | _ => rfl
  refine ⟨?_, ?_, ?_, hall.le, ?_, ?_, ?_⟩
  · exact h.previous.append hlast hP hsame (Function.update_self ..) hlist hnotMem
  · exact h.current.congr fun a ha => hsame a (hne a (by simp [ha]))
  · refine h.thread.setLists hhandling (fun a ha => hsame a (hne a ?_)) hhave ?_ (hwalk _)
    · rw [hH]
      simp [ha]
    · rw [hheads]
      exact .nil
  · intro a ha
    apply hsame
    rintro rfl
    exact ha (by simp [hmem])
  · have hrequests : requestsIn (q.setNode b (some { node with next := c })).nodes
        (↑P + ↑C + ↑H) = requestsIn q.nodes (↑P + ↑C + ↑H) := by
      apply Multiset.bind_congr
      intro a _
      by_cases hab : a = b
      · rw [hab, requestsAt, requestsAt, hnode, Qsbr.setNode]
        simp only [Function.update_self]
      · rw [requestsAt, requestsAt, hsame a hab]
    rw [hall, hrequests]
    simp only [QsbrPerThread.locals, QsbrPerThread.vectors, harg, harg', Qsbr.setNode]
  · exact fun hfalse => absurd (hhandling.symm.trans hfalse) (by decide)

theorem handleOrphans_moves {stage : HandleOrphans} {single : Bool} {caller : Caller}
    (h : Local q t P C H) (hd : t.deferred = []) (hpc : t.pc = .handleOrphans stage single caller) :
    ∃ q' t' P' C' H', q.handleOrphans t stage single caller = .ok (q', t', .nothing) ∧
      Moves q t P C H q' t' P' C' H' := by
  have hhandling : t.pc.handling = true := by rw [hpc]; rfl
  -- The vectors and list nodes of the thread itself stay, whatever the stage.
  have hgo : ∀ (s : HandleOrphans) (ds : List Deferred), NodesOk t →
      NodesOk { t with pc := .handleOrphans s single caller, deferred := ds } := by
    intro s ds hok
    unfold NodesOk at hok
    rw [hpc] at hok
    exact hok
  have hdone : NodesOk t → NodesOk { t with pc := caller.next } := by
    intro hok
    unfold NodesOk at hok
    rw [hpc] at hok
    cases caller <;> exact hok
  have harg : caller.next.argument = 0 := by cases caller <;> rfl
  have hheads : caller.next.heads = [] := by cases caller <;> rfl
  have hwalk : ∀ P', WalkOk P' caller.next := by intro P'; cases caller <;> trivial
  obtain ⟨ls, hls, hH⟩ := h.thread.lists
  have hwalk' := h.thread.walk
  rw [hpc] at hls hwalk'
  unfold Qsbr.handleOrphans
  cases stage with
  | takePrevious =>
    cases hls
    -- The list of the previous interval is the call's now.
    refine ⟨_, _, _, _, _, rfl, rotate_moves [P] h hhandling (hgo _ _) rfl rfl rfl .nil
      h.current (.cons h.previous .nil) trivial ?_⟩
    rw [hH]
    simp only [List.flatten_cons, List.flatten_nil, List.append_nil, ← Multiset.coe_add,
      Multiset.coe_nil]
    abel
  | takeCurrent a =>
    obtain ⟨l, _, hl, hnil, rfl⟩ := List.forall₂_cons_left_iff.mp hls
    cases hnil
    refine ⟨_, _, _, _, _, rfl, rotate_moves [l, C] h hhandling (hgo _ _) rfl rfl rfl
      h.previous .nil (.cons hl (.cons h.current .nil)) trivial ?_⟩
    rw [hH]
    simp only [List.flatten_cons, List.flatten_nil, List.append_nil, ← Multiset.coe_add,
      Multiset.coe_nil]
    abel
  | freePrevious list c =>
    obtain ⟨l, _, hl, hrest, rfl⟩ := List.forall₂_cons_left_iff.mp hls
    obtain ⟨l', _, hl', hnil, rfl⟩ := List.forall₂_cons_left_iff.mp hrest
    cases hnil
    -- A list at its end is dropped; otherwise its first node is freed.
    cases list with
    | none =>
      cases hl
      refine ⟨_, _, _, _, _, rfl, rotate_moves [l'] h hhandling (hgo _ _) ?_ rfl rfl
        h.previous h.current ?_ ?_ ?_⟩
      · cases single <;> rfl
      · cases single <;> exact .cons hl' .nil
      · cases single <;> trivial
      · rw [hH]
        simp only [List.flatten_cons, List.flatten_nil, List.nil_append]
    | some i =>
      cases hl with
      | @cons _ node l hnode hrest =>
        obtain ⟨t', ht', hmoves⟩ := free_moves
          (fun next => .handleOrphans (.freePrevious next c) single caller) h hhandling hd hH
          (fun o => hgo _) (fun _ => rfl) (fun _ => trivial) (.cons hnode hrest) (by
            intro o nodes' hsame ho
            exact .cons ho (.cons (hl'.congr fun a ha => hsame a (by simp [ha])) .nil))
        exact ⟨_, _, _, _, _, ht', hmoves⟩
  | attach c =>
    obtain ⟨l, _, hl, hnil, rfl⟩ := List.forall₂_cons_left_iff.mp hls
    cases hnil
    have hprevious := h.previous
    -- If the list of the previous interval is empty, the other one takes its place.
    cases hhead : q.orphanList .previous with
    | none =>
      rw [hhead] at hprevious
      cases hprevious
      refine ⟨_, _, _, _, _, rfl, rotate_moves [] h hhandling hdone harg rfl rfl hl h.current ?_
        (hwalk _) ?_⟩
      · rw [hheads]
        exact .nil
      · rw [hH]
        simp only [List.flatten_cons, List.flatten_nil, List.append_nil, ← Multiset.coe_add,
          Multiset.coe_nil]
        abel
    | some b =>
      -- The walk begins at the head of that list.
      have hmem : b ∈ P := by
        rw [hhead] at hprevious
        cases hprevious
        exact List.mem_cons_self
      exact ⟨_, _, _, _, _, rfl, rotate_moves [l] h hhandling (hgo _ _) rfl rfl rfl h.previous
        h.current (.cons hl .nil) hmem (by rw [hH])⟩
  | walk b c =>
    obtain ⟨l, _, hl, hnil, rfl⟩ := List.forall₂_cons_left_iff.mp hls
    cases hnil
    obtain ⟨node, hnode⟩ := h.previous.exists_node hwalk'
    simp only [Qsbr.node, hnode, ok_bind]
    cases hnext : node.next with
    | none =>
      exact ⟨_, _, _, _, _, rfl, rotate_moves [l] h hhandling (hgo _ _) rfl rfl rfl h.previous
        h.current (.cons hl .nil) (h.previous.getLast?_eq hwalk' hnode hnext) (by rw [hH])⟩
    | some b' =>
      exact ⟨_, _, _, _, _, rfl, rotate_moves [l] h hhandling (hgo _ _) rfl rfl rfl h.previous
        h.current (.cons hl .nil) (h.previous.mem_next hwalk' hnode hnext) (by rw [hH])⟩
  | append b c =>
    obtain ⟨l, _, hl, hnil, rfl⟩ := List.forall₂_cons_left_iff.mp hls
    cases hnil
    -- The last node of that list, whose pointer is stored.
    obtain ⟨node, hnode⟩ := h.previous.exists_node (List.mem_of_getLast? hwalk')
    refine ⟨_, _, _, _, _, ?_, append_moves h hhandling hdone harg hheads hwalk hH hl hwalk' hnode⟩
    simp only [Qsbr.node, hnode]
    rfl
  | freeCurrent list =>
    obtain ⟨l, _, hl, hnil, rfl⟩ := List.forall₂_cons_left_iff.mp hls
    cases hnil
    cases list with
    | none =>
      cases hl
      refine ⟨_, _, _, _, _, rfl, rotate_moves [] h hhandling hdone harg rfl rfl h.previous h.current
        ?_ (hwalk _) ?_⟩
      · rw [hheads]
        exact .nil
      · rw [hH]
        simp only [List.flatten_cons, List.flatten_nil, List.append_nil]
    | some i =>
      cases hl with
      | @cons _ node l hnode hrest =>
        obtain ⟨t', ht', hmoves⟩ := free_moves
          (fun next => .handleOrphans (.freeCurrent next) single caller) h hhandling hd hH
          (fun o => hgo _) (fun _ => rfl) (fun _ => trivial) (.cons hnode hrest)
          (fun o nodes' _ ho => .cons ho .nil)
        exact ⟨_, _, _, _, _, ht', hmoves⟩

/-! ## 5. `add_to_orphan_list` -/

/-- Where `orphan_pending_requests` goes on after a list. -/
def Interval.nextPc : Interval → Pc
  | .previous => .orphanLoad .current
  | .current => .paused

theorem afterOrphan_ensures (t : QsbrPerThread) (k : Interval) :
    Ensures (t.afterOrphan k) fun t' => t' = { t with pc := k.nextPc } := by
  cases k with
  | previous => exact .ok rfl
  | current => exact .bind_any fun _ => .bind_any fun _ => .pure rfl

/-- The thread gives up one of its nodes. -/
theorem ownNodes_release {k : Interval} {a : Nat} (ha : t.orphanListNode k = some a) :
    (↑t.ownNodes : Multiset Nat) = a ::ₘ ↑(t.releaseNode k).ownNodes := by
  cases k with
  | previous =>
    have hsome : t.previousIntervalOrphanListNode = some a := ha
    simp [QsbrPerThread.ownNodes, QsbrPerThread.releaseNode, hsome]
  | current =>
    have hsome : t.currentIntervalOrphanListNode = some a := ha
    simp only [QsbrPerThread.ownNodes, QsbrPerThread.releaseNode, hsome, Option.toList_some,
      Option.toList_none, List.append_nil]
    exact Multiset.coe_eq_coe.mpr (List.perm_append_singleton a _)

theorem orphanListNode_release {k k' : Interval} {a : Nat} {pc : Pc}
    (ha : QsbrPerThread.orphanListNode { t.releaseNode k with pc } k' = some a) :
    k' ≠ k ∧ t.orphanListNode k' = some a := by
  cases k <;> cases k' <;> first
    | exact absurd (show (none : Option Nat) = some a from ha) (by simp)
    | exact ⟨by simp, ha⟩

/-- `add_to_orphan_list` is running for a list, or about to. -/
def Orphaning (k : Interval) (pc : Pc) : Prop := pc = .orphanLoad k ∨ pc = .orphanCas k

theorem Orphaning.heads {k : Interval} {pc : Pc} (h : Orphaning k pc) : pc.heads = [] := by
  rcases h with rfl | rfl <;> rfl

theorem Orphaning.argument {k : Interval} {pc : Pc} (h : Orphaning k pc) : pc.argument = 0 := by
  rcases h with rfl | rfl <;> rfl

theorem Orphaning.eq_of_cas {k k' : Interval} {pc : Pc} (h : Orphaning k pc)
    (hpc : pc = .orphanCas k') : k = k' := by
  rcases h with rfl | rfl
  · exact absurd hpc (by simp)
  · exact Pc.orphanCas.inj hpc

theorem Orphaning.exists_node {k : Interval} (h : Orphaning k t.pc) (hok : NodesOk t) :
    ∃ a, t.orphanListNode k = some a := by
  unfold NodesOk at hok
  cases k with
  | previous => rcases h with hpc | hpc <;> rw [hpc] at hok <;> exact hok.1
  | current => rcases h with hpc | hpc <;> rw [hpc] at hok <;> exact hok.2

/-- The nodes of a thread that has given one up. -/
theorem ThreadLists.release {k : Interval} (h : ThreadLists nodes P t H)
    (horphaning : Orphaning k t.pc) (hframe : ∀ b ∈ (t.releaseNode k).ownNodes, nodes' b = nodes b) :
    ThreadLists nodes' P' { t.releaseNode k with pc := k.nextPc } (t.releaseNode k).ownNodes := by
  refine ⟨⟨[], ?_, ?_⟩, ?_, ?_, ?_⟩
  · cases k <;> exact .nil
  · simp only [List.flatten_nil, List.append_nil]
    rfl
  · intro k' b hb
    obtain ⟨hne, hb'⟩ := orphanListNode_release hb
    obtain ⟨node, hnode, hempty⟩ := h.own k' b hb'
    refine ⟨node, (hframe b (mem_ownNodes hb)).trans hnode, fun _ => hempty ?_⟩
    exact fun hpc => hne (horphaning.eq_of_cas hpc).symm
  · cases k <;> trivial
  · have hok := h.have_nodes
    unfold NodesOk at hok
    cases k with
    | previous =>
      have hcurrent : ∃ b, t.currentIntervalOrphanListNode = some b := by
        rcases horphaning with hpc | hpc <;> rw [hpc] at hok <;> exact hok.2
      exact ⟨rfl, hcurrent⟩
    | current =>
      have hprevious : t.previousIntervalOrphanListNode = none := by
        rcases horphaning with hpc | hpc <;> rw [hpc] at hok <;> exact hok.1
      exact ⟨hprevious, rfl⟩

section Orphan

variable {k : Interval} {a : Nat} {node : ListNode}

/-- The places of a thread that is about to add a node to an orphan list. -/
theorem Local.own_eq (h : Local q t P C H) (horphaning : Orphaning k t.pc) : H = t.ownNodes := by
  obtain ⟨ls, hls, hH⟩ := h.thread.lists
  rw [horphaning.heads] at hls
  cases hls
  simpa using hH

theorem Local.all_eq (h : Local q t P C H) (horphaning : Orphaning k t.pc)
    (ha : t.orphanListNode k = some a) :
    (↑P + ↑C + ↑H : Multiset Nat) = a ::ₘ (↑P + ↑C + ↑(t.releaseNode k).ownNodes) := by
  rw [h.own_eq horphaning, ownNodes_release ha, Multiset.add_cons]

/-- The node of the thread is in no other place. -/
theorem Local.ne_own (h : Local q t P C H) (horphaning : Orphaning k t.pc)
    (ha : t.orphanListNode k = some a) {b : Nat}
    (hb : b ∈ P ∨ b ∈ C ∨ b ∈ (t.releaseNode k).ownNodes) : b ≠ a := by
  have hnodup := h.nodup
  rw [h.all_eq horphaning ha, Multiset.nodup_cons] at hnodup
  rintro rfl
  apply hnodup.1
  simp only [Multiset.mem_add, Multiset.mem_coe, or_assoc]
  exact hb

theorem not_handling (horphaning : Orphaning k t.pc) : t.pc.handling = false := by
  rcases horphaning with hpc | hpc <;> rw [hpc] <;> rfl

/-- The node of a thread without requests for the list is freed. -/
theorem freeOwn_moves (h : Local q t P C H) (hpc : t.pc = .orphanLoad k)
    (ha : t.orphanListNode k = some a) :
    Moves q t P C H (q.setNode a none) { t.releaseNode k with pc := k.nextPc } P C
      (t.releaseNode k).ownNodes := by
  have horphaning : Orphaning k t.pc := .inl hpc
  have hall := h.all_eq horphaning ha
  have hsame : ∀ b, b ≠ a → (q.setNode a none).nodes b = q.nodes b :=
    fun b hb => Function.update_of_ne hb _ _
  refine ⟨h.previous.congr fun b hb => hsame b (h.ne_own horphaning ha (.inl hb)),
    h.current.congr fun b hb => hsame b (h.ne_own horphaning ha (.inr (.inl hb))),
    h.thread.release horphaning fun b hb => hsame b (h.ne_own horphaning ha (.inr (.inr hb))),
    ?_, ?_, ?_, fun _ => List.suffix_rfl⟩
  · rw [hall]
    exact Multiset.le_cons_self _ _
  · intro b hb
    apply hsame
    rintro rfl
    rw [hall] at hb
    exact hb (Multiset.mem_cons_self _ _)
  · obtain ⟨node, hnode, hempty⟩ := h.thread.own k a ha
    have hrequests : requestsAt q.nodes a = 0 := by
      rw [requestsAt, hnode]
      show pointersOf node.requests = 0
      rw [hempty (by rw [hpc]; simp)]
      rfl
    have hrest : requestsIn (q.setNode a none).nodes (↑P + ↑C + ↑(t.releaseNode k).ownNodes) =
        requestsIn q.nodes (↑P + ↑C + ↑(t.releaseNode k).ownNodes) := by
      apply requestsIn_congr
      intro b hb
      apply hsame
      apply h.ne_own horphaning ha
      simpa only [Multiset.mem_add, Multiset.mem_coe, or_assoc] using hb
    have hheld : ({ t.releaseNode k with pc := k.nextPc } : QsbrPerThread).vectors +
        ({ t.releaseNode k with pc := k.nextPc } : QsbrPerThread).locals = t.vectors + t.locals := by
      simp only [QsbrPerThread.locals, horphaning.argument]
      cases k <;> rfl
    rw [hall, requestsIn_cons, hrequests, zero_add, hrest, hheld]
    rfl

/-- A node of the thread is written, with the requests that go into it. -/
theorem writeOwn_moves (h : Local q t P C H) (horphaning : Orphaning k t.pc)
    (ha : t.orphanListNode k = some a) (hpc' : t'.pc = .orphanCas k)
    (hown : ∀ k, t'.orphanListNode k = t.orphanListNode k)
    (hrequests : t'.vectors + t'.locals + pointersOf node.requests =
      t.vectors + t.locals + requestsAt q.nodes a) :
    Moves q t P C H (q.setNode a (some node)) t' P C H := by
  have hall := h.all_eq horphaning ha
  have hsame : ∀ b, b ≠ a → (q.setNode a (some node)).nodes b = q.nodes b :=
    fun b hb => Function.update_of_ne hb _ _
  refine ⟨h.previous.congr fun b hb => hsame b (h.ne_own horphaning ha (.inl hb)),
    h.current.congr fun b hb => hsame b (h.ne_own horphaning ha (.inr (.inl hb))),
    ⟨⟨[], ?_, ?_⟩, ?_, ?_, ?_⟩, le_rfl, ?_, ?_, fun _ => List.suffix_rfl⟩
  · rw [hpc']
    exact .nil
  · rw [ownNodes_congr hown, h.own_eq horphaning]
    simp
  · intro k' b hb
    by_cases hk : k' = k
    · subst hk
      rw [hown, ha] at hb
      cases hb
      exact ⟨node, Function.update_self .., fun hne => absurd hpc' hne⟩
    · rw [hown] at hb
      obtain ⟨node', hnode', hempty⟩ := h.thread.own k' b hb
      have hba : b ≠ a := by
        apply h.ne_own horphaning ha
        right
        right
        apply mem_ownNodes (k := k')
        cases k <;> cases k' <;> first
          | exact absurd rfl hk
          | exact hb
      refine ⟨node', (hsame b hba).trans hnode', fun _ => hempty ?_⟩
      exact fun hcas => hk (horphaning.eq_of_cas hcas).symm
  · rw [hpc']
    trivial
  · have hok := h.thread.have_nodes
    unfold NodesOk at hok ⊢
    rw [hpc']
    have hprevious := hown .previous
    have hcurrent := hown .current
    simp only [QsbrPerThread.orphanListNode] at hprevious hcurrent
    rw [hprevious, hcurrent]
    cases k <;> rcases horphaning with hpc | hpc <;> rw [hpc] at hok <;> exact hok
  · intro b hb
    apply hsame
    rintro rfl
    rw [hall] at hb
    exact hb (Multiset.mem_cons_self _ _)
  · have hrest : requestsIn (q.setNode a (some node)).nodes (↑P + ↑C + ↑(t.releaseNode k).ownNodes) =
        requestsIn q.nodes (↑P + ↑C + ↑(t.releaseNode k).ownNodes) := by
      apply requestsIn_congr
      intro b hb
      apply hsame
      apply h.ne_own horphaning ha
      simpa only [Multiset.mem_add, Multiset.mem_coe, or_assoc] using hb
    have hat : requestsAt (q.setNode a (some node)).nodes a = pointersOf node.requests := by
      rw [requestsAt, Qsbr.setNode]
      simp only [Function.update_self]
    rw [hall, requestsIn_cons, requestsIn_cons, hrest, hat]
    generalize requestsIn q.nodes _ = rest
    calc ↑q.deallocated + (t'.vectors + t'.locals) + (pointersOf node.requests + rest)
        = ↑q.deallocated + (t'.vectors + t'.locals + pointersOf node.requests) + rest := by abel
      _ = ↑q.deallocated + (t.vectors + t.locals + requestsAt q.nodes a) + rest := by rw [hrequests]
      _ = ↑q.deallocated + (t.vectors + t.locals) + (requestsAt q.nodes a + rest) := by abel

/-- The node of the thread becomes the first one of an orphan list. -/
theorem push_moves (h : Local q t P C H) (hpc : t.pc = .orphanCas k)
    (ha : t.orphanListNode k = some a) (hnode : q.nodes a = some node)
    (hhead : q.orphanList k = node.next) :
    ∃ P' C', Moves q t P C H (q.setOrphanList k (some a)) { t.releaseNode k with pc := k.nextPc } P'
      C' (t.releaseNode k).ownNodes := by
  have horphaning : Orphaning k t.pc := .inr hpc
  have hall := h.all_eq horphaning ha
  have hthread : ∀ P', ThreadLists q.nodes P' { t.releaseNode k with pc := k.nextPc }
      (t.releaseNode k).ownNodes := fun P' => h.thread.release horphaning fun _ _ => rfl
  have hheld : ({ t.releaseNode k with pc := k.nextPc } : QsbrPerThread).vectors +
      ({ t.releaseNode k with pc := k.nextPc } : QsbrPerThread).locals = t.vectors + t.locals := by
    simp only [QsbrPerThread.locals, horphaning.argument]
    cases k <;> rfl
  cases k with
  | previous =>
    have hP : IsList ListNode.next q.nodes (some a) (a :: P) := by
      refine .cons hnode ?_
      rw [← hhead]
      exact h.previous
    have hnew : (↑(a :: P) + ↑C + ↑(t.releaseNode .previous).ownNodes : Multiset Nat) =
        ↑P + ↑C + ↑H := by
      rw [hall, ← Multiset.cons_coe, Multiset.cons_add, Multiset.cons_add]
    refine ⟨a :: P, C, hP, h.current, hthread _, hnew.le, fun _ _ => rfl, ?_,
      fun _ => List.suffix_cons a P⟩
    rw [hnew, hheld]
    rfl
  | current =>
    have hC : IsList ListNode.next q.nodes (some a) (a :: C) := by
      refine .cons hnode ?_
      rw [← hhead]
      exact h.current
    have hnew : (↑P + ↑(a :: C) + ↑(t.releaseNode .current).ownNodes : Multiset Nat) =
        ↑P + ↑C + ↑H := by
      rw [hall, ← Multiset.cons_coe, Multiset.add_cons, Multiset.cons_add]
    refine ⟨P, a :: C, h.previous, hC, hthread _, hnew.le, fun _ _ => rfl, ?_,
      fun _ => List.suffix_rfl⟩
    rw [hnew, hheld]
    rfl

theorem orphanLoad_moves (h : Local q t P C H) (hpc : t.pc = .orphanLoad k) :
    Ensures (q.orphanLoad t k) fun r => ∃ P' C' H', Moves q t P C H r.1 r.2.1 P' C' H' := by
  obtain ⟨a, ha⟩ := Orphaning.exists_node (.inl hpc) h.thread.have_nodes
  unfold Qsbr.orphanLoad
  rw [ha]
  refine .ite (fun _ => .bind (afterOrphan_ensures _ k) ?_) fun _ => .pure ⟨P, C, H, ?_⟩
  · rintro _ rfl
    exact .pure ⟨P, C, _, freeOwn_moves h hpc ha⟩
  · obtain ⟨node, hnode, hempty⟩ := h.thread.own k a ha
    have hrequests : requestsAt q.nodes a = 0 := by
      rw [requestsAt, hnode]
      show pointersOf node.requests = 0
      rw [hempty (by rw [hpc]; simp)]
      rfl
    refine writeOwn_moves h (.inl hpc) ha rfl (fun k' => by cases k <;> cases k' <;> rfl) ?_
    rw [hrequests, add_zero]
    have harg : t.pc.argument = 0 := by rw [hpc]; rfl
    simp only [QsbrPerThread.locals, harg]
    cases k with
    | previous =>
      simp only [QsbrPerThread.vectors, QsbrPerThread.requests, QsbrPerThread.clearRequests,
        Pc.argument]
      change 0 + _ + _ + _ = _
      abel
    | current =>
      simp only [QsbrPerThread.vectors, QsbrPerThread.requests, QsbrPerThread.clearRequests,
        Pc.argument]
      change _ + 0 + _ + _ = _
      abel

theorem orphanCas_moves {spurious : Bool} (h : Local q t P C H) (hpc : t.pc = .orphanCas k) :
    Ensures (q.orphanCas t k spurious) fun r => ∃ P' C' H', Moves q t P C H r.1 r.2.1 P' C' H' := by
  obtain ⟨a, ha⟩ := Orphaning.exists_node (.inr hpc) h.thread.have_nodes
  obtain ⟨node, hnode, -⟩ := h.thread.own k a ha
  unfold Qsbr.orphanCas
  rw [ha]
  simp only [Qsbr.node, hnode, ok_bind]
  refine .ite (fun hcas => .bind (afterOrphan_ensures _ k) ?_) fun _ => .pure ⟨P, C, H, ?_⟩
  · rintro _ rfl
    obtain ⟨P', C', hmoves⟩ := push_moves h hpc ha hnode hcas.1
    exact .pure ⟨P', C', _, hmoves⟩
  · refine writeOwn_moves h (.inr hpc) ha hpc (fun _ => rfl) ?_
    rw [requestsAt, hnode]

end Orphan

/-! ## 6. Every step -/

theorem Moves.refl (h : Local q t P C H) : Moves q t P C H q t P C H :=
  ⟨h.previous, h.current, h.thread, le_rfl, fun _ _ => rfl, rfl, fun _ => List.suffix_rfl⟩

/-- Every step of a running call moves requests and nodes. -/
theorem go_moves {spurious : Bool} (h : Local q t P C H) :
    Ensures (q.go t spurious) fun r => ∃ P' C' H', Moves q t P C H r.1 r.2.1 P' C' H' := by
  unfold Qsbr.go
  split
  · rename_i d rest hd
    exact .bind_any fun _ => .pure ⟨P, C, H, deallocate_moves h hd⟩
  · rename_i hd
    have hquiet : ∀ {x : Except Fault Qsbr.Result}, t.pc.plain = true → Ensures x (Quiet q t) →
        Ensures x fun r => ∃ P' C' H', Moves q t P C H r.1 r.2.1 P' C' H' :=
      fun hplain hx => hx.mono fun r hr => ⟨P, C, H, hr.moves h hplain⟩
    have hload : ∀ {pc : Pc}, t.pc.plain = true → t.pc.argument = 0 → pc.plain = true →
        pc.argument = 0 → Ensures (.ok (q, { t with pc }, .nothing) : Except Fault Qsbr.Result)
          fun r => ∃ P' C' H', Moves q t P C H r.1 r.2.1 P' C' H' :=
      fun hplain harg hplain' harg' => hquiet hplain (.ok (.setPc harg rfl (fun _ => rfl) rfl hplain'
        harg' (fun k => by cases k <;> rfl) rfl))
    cases hpc : t.pc with
    | paused | idle => exact .ok ⟨P, C, H, .refl h⟩
    | registerLoad | changeLoad | changeBumpLoad | unregisterLoad | unregisterBumpLoad =>
      exact hload (by rw [hpc]; rfl) (by rw [hpc]; rfl) rfl rfl
    | registerCas word => exact hquiet (by rw [hpc]; rfl) (registerCas_quiet hpc)
    | registerSpin e => exact hquiet (by rw [hpc]; rfl) (registerSpin_quiet hpc)
    | deallocateLoad pointer => exact hquiet (by rw [hpc]; rfl) (deallocateLoad_quiet hpc hd)
    | quiescentLoad => exact hquiet (by rw [hpc]; rfl) (quiescentLoad_quiet hpc hd)
    | removeFetchSub e single => exact hquiet (by rw [hpc]; rfl) (removeFetchSub_quiet hpc hd)
    | changeCas e single word => exact hquiet (by rw [hpc]; rfl) (changeCas_quiet hpc)
    | unregisterTry word prepared => exact hquiet (by rw [hpc]; rfl) (unregisterTry_quiet hpc hd)
    | changeBumpStore e single count =>
      refine hquiet (by rw [hpc]; rfl) (.bind (quiescentFinish_held hd) ?_)
      rintro t' ⟨hheld, hpc', hown⟩
      exact .pure (.setPc (by rw [hpc]; rfl) rfl (fun k => by cases k <;> rfl) rfl
        (by rw [hpc']; rfl) (by rw [hpc']; rfl) hown hheld)
    | unregisterBumpStore e single count =>
      refine hquiet (by rw [hpc]; rfl) (.ok (.setPc (by rw [hpc]; rfl) rfl
        (fun k => by cases k <;> rfl) rfl rfl rfl (fun k => ?_) ?_))
      · rw [← execute_nodes (t := t) single (e.advance 1) [] k]
        cases k <;> rfl
      · exact (execute_held single (e.advance 1) [] hd).trans (add_zero _)
    | handleOrphans stage single caller =>
      obtain ⟨q', t', P', C', H', heq, hmoves⟩ := handleOrphans_moves h hd hpc
      show Ensures (q.handleOrphans t stage single caller) _
      rw [heq]
      exact .ok ⟨P', C', H', hmoves⟩
    | orphanLoad k => exact orphanLoad_moves h hpc
    | orphanCas k => exact orphanCas_moves h hpc

/-- Every pointer that a step follows is one to a list node. -/
theorem go_ne_badAccess {spurious : Bool} (h : Local q t P C H) (hfollows : t.pc.follows = true) :
    q.go t spurious ≠ .error .badAccess := by
  have hassert : ∀ {α : Type} {c : Prop} [Decidable c] {f : Unit → Except Fault α},
      (∀ u, f u ≠ .error .badAccess) → (assertThat c >>= f) ≠ .error .badAccess := by
    intro α c _ f hf
    by_cases hc : c
    · rw [assertThat_pos hc]
      exact hf ()
    · rw [assertThat, if_neg hc]
      simp [bind, Except.bind]
  have hafter : ∀ (q' : Qsbr) (k : Interval), (do
      return (q', ← (t.releaseNode k).afterOrphan k, .nothing) : Except Fault Qsbr.Result) ≠
        .error .badAccess := by
    intro q' k
    cases k with
    | previous => simp [QsbrPerThread.afterOrphan, bind, Except.bind, pure, Except.pure]
    | current =>
      rw [QsbrPerThread.afterOrphan, bind_assoc]
      refine hassert fun _ => ?_
      rw [bind_assoc]
      refine hassert fun _ => ?_
      simp [bind, Except.bind, pure, Except.pure]
  unfold Qsbr.go
  split
  · exact hassert fun _ => by simp [pure, Except.pure]
  · rename_i hd
    cases hpc : t.pc with
    | handleOrphans stage single caller =>
      obtain ⟨q', t', P', C', H', heq, -⟩ := handleOrphans_moves h hd hpc
      simp [heq]
    | orphanLoad k =>
      obtain ⟨a, ha⟩ := Orphaning.exists_node (.inl hpc) h.thread.have_nodes
      simp only [Qsbr.orphanLoad, ha]
      split
      · exact hafter _ k
      · simp [pure, Except.pure]
    | orphanCas k =>
      obtain ⟨a, ha⟩ := Orphaning.exists_node (.inr hpc) h.thread.have_nodes
      obtain ⟨node, hnode, -⟩ := h.thread.own k a ha
      simp only [Qsbr.orphanCas, ha, Qsbr.node, hnode, ok_bind]
      split
      · exact hafter _ k
      · simp [pure, Except.pure]
    | _ =>
      rw [hpc] at hfollows
      exact absurd hfollows Bool.false_ne_true

end Moves


end Unodb
