import Unodb.Qsbr.Requests

/-!
# What a pointer waits for

A pointer passed to `on_next_epoch_deallocate` waits for the threads that may still use it.  Where
it is kept tells how far this has come: some places hold only pointers that wait for nobody, others
only such as wait for threads that the epoch waits for too.
-/

namespace Unodb

open QsbrState

namespace Pc

/-- `register_thread` has returned and `unregister_thread` has not made its first access. -/
def registered : Pc → Bool
  | .paused | .registerLoad | .registerCas _ | .registerSpin _ => false
  | .handleOrphans _ _ (.unregisterThread _) | .unregisterTry .. => false
  | .unregisterBumpLoad .. | .unregisterBumpStore .. | .orphanLoad _ | .orphanCas _ => false
  | _ => true

/-- A registered thread that is not between the first access of `quiescent` and its return. -/
def reading : Pc → Bool
  | .idle | .deallocateLoad _ | .quiescentLoad | .unregisterLoad => true
  | _ => false

/-- `unregister_thread` has advanced the epoch. -/
def bumping : Pc → Bool
  | .unregisterBumpLoad .. | .unregisterBumpStore .. => true
  | _ => false

/-- The running call goes on with its own requests as in single thread mode. -/
def single : Pc → Bool
  | .removeFetchSub _ single | .handleOrphans _ _ (.changeEpoch _ single) => single
  | .changeLoad _ single | .changeCas _ single _ => single
  | .changeBumpLoad _ single | .changeBumpStore _ single _ => single
  | .unregisterBumpLoad _ single | .unregisterBumpStore _ single _ => single
  | _ => false

/-- The orphans have been handled, and the epoch has not been advanced yet. -/
def rotated : Pc → Bool
  | .changeLoad .. | .changeCas .. | .unregisterTry _ true => true
  | _ => false

theorem counted_of_reading {pc : Pc} (h : pc.reading = true) : pc.counted = true := by
  cases pc with
  | idle | deallocateLoad | quiescentLoad | unregisterLoad => rfl
  | _ => exact absurd h Bool.false_ne_true

end Pc

/-! ## 1. What the places of a thread hold -/

/-- The requests in the nodes of a list satisfy this. -/
def ListHas (φ : Nat → Prop) (nodes : Nat → Option ListNode) (head : Option Nat) : Prop :=
  ∃ l, IsList ListNode.next nodes head l ∧ ∀ a ∈ l, ∀ x ∈ requestsAt nodes a, φ x

/-- The orphans that the running call holds are what it may free. -/
def ListsSafe (safe : Nat → Prop) (nodes : Nat → Option ListNode) : Pc → Prop
  | .handleOrphans (.takeCurrent list) _ _ => ListHas safe nodes list
  | .handleOrphans (.freePrevious list orphanedCurrent) single _ =>
    ListHas safe nodes list ∧ (single = true → ListHas safe nodes orphanedCurrent)
  | .handleOrphans (.freeCurrent list) _ _ => ListHas safe nodes list
  | _ => True

/-- The epoch is `g`, and the vectors are still those of the epoch before. -/
def Behind (g : Epoch) (t : QsbrPerThread) : Prop :=
  t.pc.counted = true ∧ t.lastSeenEpoch ≠ g ∨ t.pc.bumping = true

/-- What a thread holds, in epoch `g`: the pointers it is about to deallocate are safe, those of the
    last interval are near, that is safe as soon as the epoch advances, and those in its vectors are its
    own. -/
structure HoldsOk (own near safe : Nat → Prop) (g : Epoch) (nodes : Nat → Option ListNode)
    (t : QsbrPerThread) : Prop where
  deferred : ∀ d ∈ t.deferred, safe d.target
  own : ∀ k, ∀ r ∈ t.requests k, own r.pointer
  previous : ∀ r ∈ t.requests .previous, near r.pointer
  behind : Behind g t → (∀ r ∈ t.requests .previous, safe r.pointer) ∧
    ∀ r ∈ t.requests .current, near r.pointer
  single : t.pc.single = true → ∀ k, ∀ r ∈ t.requests k, safe r.pointer
  lists : ListsSafe safe nodes t.pc
  node : t.pc = .orphanCas .previous → ∀ a, t.orphanListNode .previous = some a →
    ∀ x ∈ requestsAt nodes a, near x

section HoldsOk

variable {own own' near near' safe safe' : Nat → Prop} {g e : Epoch}
  {nodes nodes' : Nat → Option ListNode} {t t' : QsbrPerThread} {q q' : Qsbr} {head : Option Nat}
  {pc : Pc} {single : Bool} {rs : List DeallocationRequest} {l : List Nat}

theorem ListHas.mono (h : ListHas near nodes head) (himp : ∀ x, near x → near' x) :
    ListHas near' nodes head := by
  obtain ⟨l, hl, hall⟩ := h
  exact ⟨l, hl, fun a ha x hx => himp x (hall a ha x hx)⟩

theorem ListHas.congr (h : ListHas near nodes head) (hl : IsList ListNode.next nodes head l)
    (hsame : ∀ a ∈ l, nodes' a = nodes a) : ListHas near nodes' head := by
  obtain ⟨l', hl', hall⟩ := h
  obtain rfl := hl.unique hl'
  refine ⟨l, hl.congr hsame, fun a ha x hx => hall a ha x ?_⟩
  rwa [requestsAt, ← hsame a ha]

/-- The same list, where the pointers in it satisfy something else too. -/
theorem ListHas.transfer (h : ListHas near nodes head) (hl : IsList ListNode.next nodes head l)
    (himp : ∀ a ∈ l, ∀ x ∈ requestsAt nodes a, near x → near' x) : ListHas near' nodes head := by
  obtain ⟨l', hl', hall⟩ := h
  obtain rfl := hl.unique hl'
  exact ⟨l, hl, fun a ha x hx => himp a ha x hx (hall a ha x hx)⟩

theorem ListHas.of_forall (hl : IsList ListNode.next nodes head l) (h : ∀ x, near x) :
    ListHas near nodes head := ⟨l, hl, fun _ _ x _ => h x⟩

/-- The first node of a list and the rest of it. -/
theorem ListHas.split {i : Nat} (h : ListHas near nodes (some i)) : ∃ node, nodes i = some node ∧
    (∀ r ∈ node.requests, near r.pointer) ∧ ListHas near nodes node.next := by
  obtain ⟨l, hl, hall⟩ := h
  cases hl with
  | @cons _ node rest hnode hrest =>
    refine ⟨node, hnode, fun r hr => hall i List.mem_cons_self _ ?_, rest, hrest,
      fun a ha => hall a (List.mem_cons_of_mem _ ha)⟩
    rw [requestsAt, hnode]
    exact Multiset.mem_coe.mpr (List.mem_map_of_mem hr)

theorem ListsSafe.mono (h : ListsSafe safe nodes pc) (himp : ∀ x, safe x → safe' x) :
    ListsSafe safe' nodes pc := by
  unfold ListsSafe at h ⊢
  split at h
  · exact h.mono himp
  · exact ⟨h.1.mono himp, fun hsingle => (h.2 hsingle).mono himp⟩
  · exact h.mono himp
  · trivial

theorem ListsSafe.of_plain (h : pc.plain = true) : ListsSafe safe nodes pc := by
  unfold ListsSafe
  split
  · exact absurd h (by simp [Pc.plain])
  · exact absurd h (by simp [Pc.plain])
  · exact absurd h (by simp [Pc.plain])
  · trivial

/-- What is true of the lists of a running call one by one. -/
theorem ListsSafe.lists {ls : List (List Nat)} (h : ListsSafe safe nodes pc)
    (hls : List.Forall₂ (IsList ListNode.next nodes) pc.heads ls)
    (hlist : ∀ head l, IsList ListNode.next nodes head l → (∀ a ∈ l, a ∈ ls.flatten) →
      ListHas safe nodes head → ListHas safe' nodes' head) : ListsSafe safe' nodes' pc := by
  unfold ListsSafe at h ⊢
  split at h
  · obtain ⟨l, _, hl, hnil, rfl⟩ := List.forall₂_cons_left_iff.mp hls
    exact hlist _ _ hl (fun a ha => by simp [ha]) h
  · obtain ⟨l, _, hl, hrest, rfl⟩ := List.forall₂_cons_left_iff.mp hls
    obtain ⟨l', _, hl', hnil, rfl⟩ := List.forall₂_cons_left_iff.mp hrest
    exact ⟨hlist _ _ hl (fun a ha => by simp [ha]) h.1,
      fun hsingle => hlist _ _ hl' (fun a ha => by simp [ha]) (h.2 hsingle)⟩
  · obtain ⟨l, _, hl, hnil, rfl⟩ := List.forall₂_cons_left_iff.mp hls
    exact hlist _ _ hl (fun a ha => by simp [ha]) h
  · trivial

/-- What becomes true of more pointers stays true of those that a thread holds. -/
theorem HoldsOk.mono (h : HoldsOk own near safe g nodes t) (hown : ∀ x, own x → own' x)
    (hnear : ∀ x, near x → near' x) (hsafe : ∀ x, safe x → safe' x) :
    HoldsOk own' near' safe' g nodes t where
  deferred d hd := hsafe _ (h.deferred d hd)
  own k r hr := hown _ (h.own k r hr)
  previous r hr := hnear _ (h.previous r hr)
  behind hbehind := ⟨fun r hr => hsafe _ ((h.behind hbehind).1 r hr),
    fun r hr => hnear _ ((h.behind hbehind).2 r hr)⟩
  single hsingle k r hr := hsafe _ (h.single hsingle k r hr)
  lists := h.lists.mono hsafe
  node hpc a ha x hx := hnear _ (h.node hpc a ha x hx)

/-- The epoch advances: what was near is safe, and everything else is near. -/
theorem HoldsOk.advance (h : HoldsOk own near safe g nodes t) (hnear : ∀ x, near' x)
    (hsafe : ∀ x, safe x → safe' x) (hpassed : ∀ x, near x → safe' x) :
    HoldsOk own near' safe' e nodes t where
  deferred d hd := hsafe _ (h.deferred d hd)
  own := h.own
  previous _ _ := hnear _
  behind _ := ⟨fun r hr => hpassed _ (h.previous r hr), fun _ _ => hnear _⟩
  single hsingle k r hr := hsafe _ (h.single hsingle k r hr)
  lists := h.lists.mono hsafe
  node _ _ _ _ _ := hnear _

/-- The nodes of other places change. -/
theorem HoldsOk.congr {P H : List Nat} (h : HoldsOk own near safe g nodes t)
    (hlists : ThreadLists nodes P t H) (hsame : ∀ a ∈ H, nodes' a = nodes a) :
    HoldsOk own near safe g nodes' t := by
  obtain ⟨ls, hls, hH⟩ := hlists.lists
  refine { h with
    lists := h.lists.lists hls fun head l hl hsub hlist => hlist.congr hl fun a ha => hsame a ?_
    node := fun hpc a ha x hx => h.node hpc a ha x ?_ }
  · rw [hH]
    exact List.mem_append_right _ (hsub a ha)
  · have hmem : a ∈ H := by
      rw [hH]
      exact List.mem_append_left _ (mem_ownNodes ha)
    rwa [requestsAt, ← hsame a hmem]

/-- What becomes true of the pointers in the places of a thread, by a property that they all have. -/
theorem HoldsOk.monoOn {P H : List Nat} {φ : Nat → Prop} (h : HoldsOk own near safe g nodes t)
    (hlists : ThreadLists nodes P t H) (hvectors : ∀ k, ∀ r ∈ t.requests k, φ r.pointer)
    (hdeferred : ∀ d ∈ t.deferred, φ d.target) (hnodes : ∀ a ∈ H, ∀ x ∈ requestsAt nodes a, φ x)
    (hown : ∀ x, φ x → own x → own' x) (hnear : ∀ x, φ x → near x → near' x)
    (hsafe : ∀ x, φ x → safe x → safe' x) : HoldsOk own' near' safe' g nodes t := by
  obtain ⟨ls, hls, hH⟩ := hlists.lists
  refine ⟨fun d hd => hsafe _ (hdeferred d hd) (h.deferred d hd),
    fun k r hr => hown _ (hvectors k r hr) (h.own k r hr),
    fun r hr => hnear _ (hvectors _ r hr) (h.previous r hr),
    fun hb => ⟨fun r hr => hsafe _ (hvectors _ r hr) ((h.behind hb).1 r hr),
      fun r hr => hnear _ (hvectors _ r hr) ((h.behind hb).2 r hr)⟩,
    fun hs k r hr => hsafe _ (hvectors k r hr) (h.single hs k r hr),
    h.lists.lists hls fun head l hl hsub hlist => hlist.transfer hl fun a ha x hx =>
      hsafe x (hnodes a ?_ x hx), fun hpc a ha x hx => hnear x (hnodes a ?_ x hx) (h.node hpc a ha x hx)⟩
  · rw [hH]
    exact List.mem_append_right _ (hsub a ha)
  · rw [hH]
    exact List.mem_append_left _ (mem_ownNodes ha)

/-- A thread that goes on with the same requests. -/
theorem HoldsOk.goOn (h : HoldsOk own near safe g nodes t) (hd : t'.deferred = t.deferred)
    (hrequests : ∀ k, t'.requests k = t.requests k) (hbehind : Behind g t' → Behind g t)
    (hsingle : t'.pc.single = true → t.pc.single = true) (hlists : ListsSafe safe nodes' t'.pc)
    (hnode : t'.pc ≠ .orphanCas .previous) : HoldsOk own near safe g nodes' t' where
  deferred := hd ▸ h.deferred
  own k := hrequests k ▸ h.own k
  previous := hrequests .previous ▸ h.previous
  behind hb := by
    rw [hrequests, hrequests]
    exact h.behind (hbehind hb)
  single hs k := hrequests k ▸ h.single (hsingle hs) k
  lists := hlists
  node hpc := absurd hpc hnode

theorem HoldsOk.setPc (h : HoldsOk own near safe g nodes t) (hplain : pc.plain = true)
    (hcounted : pc.counted = true → t.pc.counted = true)
    (hbumping : pc.bumping = true → t.pc.bumping = true)
    (hsingle : pc.single = true → t.pc.single = true) :
    HoldsOk own near safe g nodes { t with pc } :=
  h.goOn rfl (fun k => by cases k <;> rfl) (Or.imp (And.imp_left hcounted) hbumping) hsingle
    (.of_plain hplain) (ne_orphanCas_of_plain hplain _)

/-- A thread without requests. -/
theorem HoldsOk.of_none (hd : ∀ d ∈ t.deferred, safe d.target) (hnone : ∀ k, t.requests k = [])
    (hplain : t.pc.plain = true) : HoldsOk own near safe g nodes t where
  deferred := hd
  own k _ hr := absurd (hnone k ▸ hr) List.not_mem_nil
  previous _ hr := absurd (hnone .previous ▸ hr) List.not_mem_nil
  behind _ := ⟨fun _ hr => absurd (hnone .previous ▸ hr) List.not_mem_nil,
    fun _ hr => absurd (hnone .current ▸ hr) List.not_mem_nil⟩
  single _ k _ hr := absurd (hnone k ▸ hr) List.not_mem_nil
  lists := .of_plain hplain
  node hpc := absurd hpc (ne_orphanCas_of_plain hplain _)

theorem NoRequests.requests (h : NoRequests t) (k : Interval) : t.requests k = [] := by
  cases k with
  | previous => exact h.1
  | current => exact h.2

/-! ## 2. Moving on to the epoch -/

/-- A thread that has just seen the epoch `g`. -/
structure UpToDate (own near safe : Nat → Prop) (g : Epoch) (t : QsbrPerThread) : Prop where
  deferred : ∀ d ∈ t.deferred, safe d.target
  own : ∀ k, ∀ r ∈ t.requests k, own r.pointer
  previous : ∀ r ∈ t.requests .previous, near r.pointer
  seen : t.lastSeenEpoch = g

theorem UpToDate.holds (h : UpToDate own near safe g t) (hd : t'.deferred = t.deferred)
    (hrequests : ∀ k, t'.requests k = t.requests k) (hseen : t'.lastSeenEpoch = t.lastSeenEpoch)
    (hplain : t'.pc.plain = true) (hbumping : t'.pc.bumping = false)
    (hsingle : t'.pc.single = true → ∀ x, own x → safe x) : HoldsOk own near safe g nodes t' where
  deferred := hd ▸ h.deferred
  own k := hrequests k ▸ h.own k
  previous := hrequests .previous ▸ h.previous
  behind hb := by
    rcases hb with ⟨-, hne⟩ | hb
    · exact absurd (hseen.trans h.seen) hne
    · exact absurd (hbumping.symm.trans hb) Bool.false_ne_true
  single hs k r hr := hsingle hs _ (h.own k r (hrequests k ▸ hr))
  lists := .of_plain hplain
  node hpc := absurd hpc (ne_orphanCas_of_plain hplain _)

/-- `execute_previous_requests`, where the last interval is over. -/
theorem execute_upToDate (hown : ∀ k, ∀ r ∈ t.requests k, own r.pointer)
    (hprevious : ∀ r ∈ t.requests .previous, safe r.pointer)
    (hcurrent : ∀ r ∈ t.requests .current, near r.pointer)
    (hsingle : single = true → ∀ r ∈ t.requests .current, safe r.pointer)
    (hrs : ∀ r ∈ rs, own r.pointer) :
    UpToDate own near safe e (t.executePreviousRequests single e rs) := by
  have hdefer : ∀ {rs : List DeallocationRequest}, (∀ r ∈ rs, safe r.pointer) →
      ∀ d ∈ rs.map fun r => Deferred.request r false (some e) (some single), safe d.target := by
    intro rs hsafe d hd
    obtain ⟨r, hr, rfl⟩ := List.mem_map.mp hd
    exact hsafe r hr
  unfold QsbrPerThread.executePreviousRequests
  cases single with
  | false =>
    refine ⟨hdefer hprevious, fun k => ?_, hcurrent, rfl⟩
    cases k with
    | previous => exact hown .current
    | current => exact hrs
  | true =>
    refine ⟨fun d hd => ?_, fun k => ?_, fun r hr => absurd hr List.not_mem_nil, rfl⟩
    · rcases List.mem_append.mp hd with hd | hd
      · exact hdefer (hsingle rfl) d hd
      · exact hdefer hprevious d hd
    · cases k with
      | previous => exact fun r hr => absurd hr List.not_mem_nil
      | current => exact hrs

/-- `advance_last_seen_epoch` of a counted thread. -/
theorem advance_upToDate (h : HoldsOk own near safe g nodes t)
    (hcounted : t.pc.counted = true) (halone : single = true → ∀ x, own x → safe x)
    (hrs : ∀ r ∈ rs, own r.pointer) :
    Ensures (t.advanceLastSeenEpoch single g rs) (UpToDate own near safe g) := by
  unfold QsbrPerThread.advanceLastSeenEpoch
  refine .ite (fun heq => .pure ?_) fun hne => .bind_any fun _ => .pure ?_
  · exact ⟨h.deferred, h.own, h.previous, heq.symm⟩
  · obtain ⟨hprevious, hcurrent⟩ := h.behind (.inl ⟨hcounted, Ne.symm hne⟩)
    exact execute_upToDate h.own hprevious hcurrent
      (fun hsingle r hr => halone hsingle _ (h.own .current r hr)) hrs

/-! ## 3. One step of a thread -/

/-- The epoch advances with the step. -/
def Mark.advancing : Mark → Bool
  | .advances _ => true
  | _ => false

/-- What a thread holds after a step of it, and what the orphan list of the previous interval does:
    either the step advances the epoch, or the same pointers are near and safe. -/
inductive HoldsKept (own near safe : Nat → Prop) (g : Epoch) (q : Qsbr) : Qsbr.Result → Prop where
  | stays {q' : Qsbr} {t' : QsbrPerThread} {mark : Mark} : mark.advancing = false →
      HoldsOk own near safe g q'.nodes t' →
      (t'.pc.rotated = false → ListHas near q.nodes (q.orphanList .previous) →
        ListHas near q'.nodes (q'.orphanList .previous)) → HoldsKept own near safe g q (q', t', mark)
  | advances {q' : Qsbr} {t' : QsbrPerThread} {leaves : Bool} :
      (∀ near' safe' : Nat → Prop, (∀ x, near' x) → (∀ x, safe x → safe' x) → (∀ x, near x → safe' x) →
        HoldsOk own near' safe' (g.advance 1) q'.nodes t') →
      HoldsKept own near safe g q (q', t', .advances leaves)

/-- A step that touches no list. -/
theorem HoldsKept.quiet {mark : Mark} (h : HoldsOk own near safe g q'.nodes t')
    (hmark : mark.advancing = false) (hnodes : q'.nodes = q.nodes)
    (hlist : q'.orphanList .previous = q.orphanList .previous) :
    HoldsKept own near safe g q (q', t', mark) :=
  .stays hmark h fun _ hlist' => by rwa [hnodes, hlist]

section Step

variable {n p : Nat} {w : Bool} {P C H : List Nat}
  (h : HoldsOk own near safe g q.nodes t) (hword : q.state = pack g n p) (hp : p ≤ n)
  (hn : n < 2 ^ 30) (hok : PcOk g p w t)
  (halone : n < 2 → ∀ x, own x → safe x)

include h hok in
theorem registerCas_keeps {word : BitVec 64} {spurious : Bool} (hpc : t.pc = .registerCas word) :
    Ensures (q.registerCas t word spurious) (HoldsKept own near safe g q) := by
  simp only [PcOk, hpc] at hok
  have hnone : ∀ {t' : QsbrPerThread}, t'.deferred = t.deferred → (∀ k, t'.requests k = t.requests k) →
      t'.pc.plain = true → HoldsOk own near safe g q.nodes t' := fun hd hrequests hplain =>
    .of_none (hd ▸ h.deferred) (fun k => (hrequests k).trans (hok.2.1.requests k)) hplain
  unfold Qsbr.registerCas
  refine .bind_any fun _ => .bind_any fun _ => .bind_any fun _ => .ite (fun _ => ?_) fun _ => ?_
  · refine .bind_any fun _ => .ite (fun _ => .pure ?_) fun _ => .pure ?_
    · exact .quiet (hnone rfl (fun k => by cases k <;> rfl) rfl) rfl rfl rfl
    · exact .quiet (hnone rfl (fun k => by cases k <;> rfl) rfl) rfl rfl rfl
  · refine .bind_any fun _ => .bind_any fun _ => .bind_any fun _ => .ite (fun _ => .pure ?_)
      fun _ => .pure ?_
    · exact .quiet (hnone rfl (fun k => by cases k <;> rfl) rfl) rfl rfl rfl
    · exact .quiet (hnone rfl (fun k => by cases k <;> rfl) rfl) rfl rfl rfl

include h hok in
theorem registerSpin_keeps (hpc : t.pc = .registerSpin e) :
    Ensures (q.registerSpin t e) (HoldsKept own near safe g q) := by
  simp only [PcOk, hpc] at hok
  unfold Qsbr.registerSpin
  refine .bind_any fun _ => .ite (fun _ => .pure ?_) fun _ => .pure (.quiet h rfl rfl rfl)
  exact .quiet (.of_none h.deferred (fun k => (by cases k <;> rfl : _ = t.requests k).trans
    (hok.1.requests k)) rfl) rfl rfl rfl

include h hword hp hn halone in
theorem deallocateLoad_keeps {pointer : Nat} (hpc : t.pc = .deallocateLoad pointer)
    (hown : own pointer) (hsafe : n < 2 → safe pointer) :
    Ensures (q.deallocateLoad t pointer) (HoldsKept own near safe g q) := by
  have hcounted : t.pc.counted = true := by rw [hpc]; rfl
  simp only [Qsbr.deallocateLoad, hword, getEpoch_pack g hn hp, singleThreadMode_pack g hn hp, ok_bind,
    decide_eq_true_eq]
  refine .ite (fun hsingle => ?_) fun hsingle => .ite (fun hne => ?_) fun hne => .pure ?_
  · refine .bind (advance_upToDate h hcounted (fun _ => halone hsingle) fun _ hr =>
      absurd hr List.not_mem_nil) fun t' ht' => .pure (.quiet ?_ rfl rfl rfl)
    have hholds : HoldsOk own near safe g q.nodes { t' with pc := .idle } :=
      ht'.holds rfl (fun k => by cases k <;> rfl) rfl rfl rfl fun hs => absurd hs Bool.false_ne_true
    refine { hholds with deferred := fun d hd => ?_ }
    rcases List.mem_append.mp hd with hd | hd
    · exact ht'.deferred d hd
    · rw [List.mem_singleton.mp hd]
      exact hsafe hsingle
  · refine .bind (advance_upToDate h hcounted (fun hs => halone (of_decide_eq_true hs)) fun r hr => ?_)
      fun t' ht' => .bind_any fun _ => .pure (.quiet ?_ rfl rfl rfl)
    · rw [List.mem_singleton.mp hr]
      exact hown
    · exact ht'.holds rfl (fun k => by cases k <;> rfl) rfl rfl rfl
        fun hs => absurd hs Bool.false_ne_true
  · -- The epoch is the one that the thread has seen, so the vectors stay.
    refine .quiet ?_ rfl rfl rfl
    have hholds : HoldsOk own near safe g q.nodes { t with pc := .idle } :=
      h.setPc rfl (fun _ => hcounted) (fun hb => absurd hb Bool.false_ne_true)
        fun hs => absurd hs Bool.false_ne_true
    have hseen : t.lastSeenEpoch = g := not_not.mp hne
    refine { hholds with
      own := fun k r hr => ?_
      behind := fun hb => ?_
      single := fun hs => absurd hs Bool.false_ne_true }
    · cases k with
      | previous => exact h.own .previous r hr
      | current =>
        rcases List.mem_append.mp hr with hr | hr
        · exact h.own .current r hr
        · rw [List.mem_singleton.mp hr]
          exact hown
    · rcases hb with ⟨-, hne⟩ | hb
      · exact absurd hseen hne
      · exact absurd hb Bool.false_ne_true

include h hword hp hn halone in
theorem quiescentLoad_keeps (hpc : t.pc = .quiescentLoad) :
    Ensures (q.quiescentLoad t) (HoldsKept own near safe g q) := by
  have hcounted : t.pc.counted = true := by rw [hpc]; rfl
  simp only [Qsbr.quiescentLoad, hword, getEpoch_pack g hn hp, singleThreadMode_pack g hn hp, ok_bind]
  refine .bind (advance_upToDate h hcounted (fun hs => halone (of_decide_eq_true hs)) fun _ hr =>
    absurd hr List.not_mem_nil) fun t₁ ht₁ => ?_
  have hrest : ∀ t₂, UpToDate own near safe g t₂ → Ensures (do
      assertThat (g = t₂.lastSeenQuiescentStateEpoch)
      if t₂.quiescentStatesSinceEpochChange = 0 then
        return (q, { t₂ with pc := .removeFetchSub g (decide (n < 2)) }, .nothing)
      else
        return (q, { t₂ with
          quiescentStatesSinceEpochChange := t₂.quiescentStatesSinceEpochChange + 1, pc := .idle },
          .nothing)) (HoldsKept own near safe g q) := by
    intro t₂ ht₂
    refine .bind_any fun _ => .ite (fun _ => .pure ?_) fun _ => .pure ?_
    · exact .quiet (ht₂.holds rfl (fun k => by cases k <;> rfl) rfl rfl rfl
        fun hs => halone (of_decide_eq_true hs)) rfl rfl rfl
    · exact .quiet (ht₂.holds rfl (fun k => by cases k <;> rfl) rfl rfl rfl
        fun hs => absurd hs Bool.false_ne_true) rfl rfl rfl
  have hpure : ∀ t₂, UpToDate own near safe g t₂ →
      Ensures (pure t₂ : Except Fault QsbrPerThread) (UpToDate own near safe g) := fun _ h => .pure h
  refine .ite (fun _ => .bind_any fun _ => .bind (hpure _ ⟨ht₁.deferred, fun k => ?_, ht₁.previous,
    ht₁.seen⟩) hrest) fun _ => .bind (hpure _ ht₁) hrest
  cases k with
  | previous => exact ht₁.own .previous
  | current => exact ht₁.own .current

/-- The end of `quiescent`. -/
theorem quiescentFinish_keeps {e' : Epoch} (h : HoldsOk own near safe g nodes t)
    (hseen : t.lastSeenQuiescentStateEpoch = e) (hfresh : e' ≠ e → Behind g t ∧ e' = g)
    (hsingle : single = true → t.pc.single = true) (hstill : e' = e → t.lastSeenEpoch = g) :
    Ensures (t.quiescentFinish single e') fun t' => HoldsOk own near safe g nodes t' ∧ t'.pc = .idle := by
  unfold QsbrPerThread.quiescentFinish
  refine .bind_any fun _ => .ite (fun hne => .bind_any fun _ => .pure ?_) fun hne => .pure ?_
  · obtain ⟨hbehind, rfl⟩ := hfresh (hseen ▸ hne)
    obtain ⟨hprevious, hcurrent⟩ := h.behind hbehind
    have hup : UpToDate own near safe e' (QsbrPerThread.executePreviousRequests
        { t with lastSeenQuiescentStateEpoch := e', pc := .idle } single e' []) :=
      execute_upToDate (fun k => by cases k with
        | previous => exact h.own .previous
        | current => exact h.own .current) hprevious hcurrent
        (fun hs => h.single (hsingle hs) .current) fun _ hr => absurd hr List.not_mem_nil
    have hpc : (QsbrPerThread.executePreviousRequests
        { t with lastSeenQuiescentStateEpoch := e', pc := .idle } single e' []).pc = .idle := execute_pc
    refine ⟨hup.holds rfl (fun _ => rfl) rfl (by rw [hpc]; rfl) (by rw [hpc]; rfl) fun hs => ?_, hpc⟩
    rw [hpc] at hs
    exact absurd hs Bool.false_ne_true
  · have heq : e' = e := (not_not.mp hne).trans hseen
    refine ⟨h.goOn rfl (fun k => by cases k <;> rfl) (fun hb => ?_)
      (fun hs => absurd hs Bool.false_ne_true) trivial (by simp), rfl⟩
    rcases hb with ⟨-, hb⟩ | hb
    · exact absurd (hstill heq) hb
    · exact absurd hb Bool.false_ne_true

include h hok in
theorem removeFetchSub_keeps (hpc : t.pc = .removeFetchSub e single) :
    Ensures (q.removeFetchSub t e single) (HoldsKept own near safe g q) := by
  simp only [PcOk, hpc] at hok
  obtain ⟨-, rfl, hquiescent, hepoch, -⟩ := hok
  unfold Qsbr.removeFetchSub
  refine .bind_any fun _ => .bind_any fun _ => .bind_any fun _ => .bind_any fun _ =>
    .bind_any fun _ => .bind_any fun _ => .bind_any fun _ => .bind_any fun _ =>
    .ite (fun _ => ?_) fun _ => .pure ?_
  · refine .bind (quiescentFinish_keeps h hquiescent (fun hne => absurd rfl hne)
      (fun hs => by rw [hpc]; exact hs) fun _ => hepoch) fun t' ht' => .pure (.quiet ht'.1 rfl rfl rfl)
  · refine .quiet (h.setPc rfl (fun _ => by rw [hpc]; rfl) (fun hb => absurd hb Bool.false_ne_true)
      fun hs => ?_) rfl rfl rfl
    rw [hpc]
    exact hs

include h hok in
theorem changeBumpStore_keeps {count : Nat} (hpc : t.pc = .changeBumpStore e single count) :
    Ensures (do return ({ q with epochChangeCount := count + 1 },
      ← t.quiescentFinish single (e.advance 1), .nothing)) (HoldsKept own near safe g q) := by
  simp only [PcOk, hpc] at hok
  obtain ⟨-, rfl, hquiescent, hepoch, -⟩ := hok
  refine .bind (quiescentFinish_keeps h hquiescent (fun _ => ⟨.inl ⟨?_, ?_⟩, rfl⟩)
    (fun hs => ?_) fun heq => absurd heq (Epoch.advance_ne e))
    fun t' ht' => .pure (.quiet ht'.1 rfl rfl rfl)
  · rw [hpc]
    rfl
  · rw [hepoch]
    exact (Epoch.advance_ne e).symm
  · rw [hpc]
    exact hs

include h in
theorem changeCas_keeps {word : BitVec 64} {spurious : Bool} (hpc : t.pc = .changeCas e single word) :
    Ensures (q.changeCas t e single word spurious) (HoldsKept own near safe g q) := by
  have hcounted : t.pc.counted = true := by rw [hpc]; rfl
  have hs : ∀ {pc : Pc}, pc.single = single → pc.single = true → t.pc.single = true := by
    intro pc heq hs
    rw [hpc]
    exact heq.symm.trans hs
  unfold Qsbr.changeCas
  refine .bind_any fun _ => .bind_any fun _ => .bind_any fun _ => .ite (fun _ => ?_)
    fun _ => .pure ?_
  · refine .bind_any fun _ => .bind_any fun _ => .pure (.advances ?_)
    intro near' safe' hnear hsafe hpassed
    exact (h.advance hnear hsafe hpassed).setPc rfl (fun _ => hcounted)
      (fun hb => absurd hb Bool.false_ne_true) (hs rfl)
  · exact .quiet (h.setPc rfl (fun _ => hcounted) (fun hb => absurd hb Bool.false_ne_true) (hs rfl))
      rfl rfl rfl

theorem singleThreadMode_ensures (word : BitVec 64) :
    Ensures (singleThreadMode word) (· = decide (doGetThreadCount word < 2)) :=
  .bind (.bind_any fun _ => .pure rfl) fun _ hcount => .pure (hcount ▸ rfl)

include h hword hp hn halone in
theorem unregisterTry_keeps {word : BitVec 64} {prepared spurious : Bool}
    (hpc : t.pc = .unregisterTry word prepared) :
    Ensures (q.unregisterTry t word prepared spurious) (HoldsKept own near safe g q) := by
  have hcounted : t.pc.counted = true := by rw [hpc]; rfl
  have hpc' : ∀ {pc : Pc} {q' : Qsbr} {mark : Mark}, q'.nodes = q.nodes →
      q'.orphanList .previous = q.orphanList .previous → mark.advancing = false → pc.plain = true →
      pc.bumping = false → pc.single = false → HoldsKept own near safe g q (q', { t with pc }, mark) := by
    intro pc q' mark hnodes hlist hmark hplain hbumping hsingle
    refine .quiet (hnodes ▸ h.setPc hplain (fun _ => hcounted) (fun hb => ?_) fun hs => ?_) hmark
      hnodes hlist
    · exact absurd (hbumping.symm.trans hb) Bool.false_ne_true
    · exact absurd (hsingle.symm.trans hs) Bool.false_ne_true
  unfold Qsbr.unregisterTry
  refine .bind (getThreadsInPreviousEpoch_ensures word) ?_
  rintro _ rfl
  refine .ite (fun _ => .bind_any fun _ => .bind_any fun _ => .bind_any fun _ =>
    .ite (fun _ => .pure (hpc' rfl rfl rfl rfl rfl rfl)) fun _ => .pure (hpc' rfl rfl rfl rfl rfl rfl))
    fun _ => ?_
  refine .bind (getEpoch_ensures word) ?_
  rintro _ rfl
  refine .bind (singleThreadMode_ensures word) ?_
  rintro _ rfl
  -- After the new state has been computed, either way.
  have hrest : ∀ {c c'' : Prop} [Decidable c] [Decidable c''] (caller : BitVec 64)
      (newState : BitVec 64), Ensures (if c then
        pure (q, { t with
          pc := .handleOrphans .takePrevious (decide (doGetThreadCount word < 2)) (.unregisterThread caller)
          }, .nothing)
      else if q.state = word ∧ (!spurious) = true then do
        let t ← t.advanceLastSeenEpoch (decide (doGetThreadCount word < 2)) (doGetEpoch word) []
        if c'' then
          return ({ q with state := newState }, { t with
            pc := .unregisterBumpLoad (doGetEpoch word) (decide (doGetThreadCount word < 2)) },
            .advances true)
        else
          return ({ q with state := newState }, { t with pc := .orphanLoad .previous }, .leaves)
      else pure (q, { t with pc := .unregisterTry q.state prepared }, .nothing) :
        Except Fault Qsbr.Result) (HoldsKept own near safe g q) := by
    intro c c'' _ _ caller newState
    refine .ite (fun _ => .pure (hpc' rfl rfl rfl rfl rfl rfl)) fun _ => .ite (fun hcas => ?_)
      fun _ => .pure (hpc' rfl rfl rfl rfl rfl rfl)
    have hepoch : doGetEpoch word = g := by rw [← hcas.1, hword, doGetEpoch_pack g hn hp]
    have hcount : doGetThreadCount word = n := by rw [← hcas.1, hword, doGetThreadCount_pack g hn hp]
    rw [hepoch, hcount]
    refine .bind (advance_upToDate h hcounted (fun hs => halone (of_decide_eq_true hs)) fun _ hr =>
      absurd hr List.not_mem_nil) fun t' ht' => .ite (fun _ => .pure (.advances ?_)) fun _ => .pure ?_
    · intro near' safe' hnear hsafe hpassed
      have hrequests : ∀ k, QsbrPerThread.requests { t' with
          pc := .unregisterBumpLoad g (decide (n < 2)) } k = t'.requests k := fun k => by cases k <;> rfl
      refine ⟨fun d hd => hsafe _ (ht'.deferred d hd), fun k => hrequests k ▸ ht'.own k,
        fun _ _ => hnear _, fun _ => ⟨fun r hr => hpassed _ (ht'.previous r hr), fun _ _ => hnear _⟩,
        fun hs k r hr => ?_, trivial, fun hpc => absurd hpc (by simp)⟩
      exact hsafe _ (halone (of_decide_eq_true hs) _ (ht'.own k r (hrequests k ▸ hr)))
    · exact .quiet (ht'.holds rfl (fun k => by cases k <;> rfl) rfl rfl rfl
        fun hs => absurd hs Bool.false_ne_true) rfl rfl rfl
  exact .ite (fun _ => .bind_any fun _ => hrest _ _) fun _ => .bind_any fun _ => hrest _ _

include h in
theorem unregisterBumpStore_keeps {count : Nat} (hpc : t.pc = .unregisterBumpStore e single count) :
    HoldsKept own near safe g q ({ q with epochChangeCount := count + 1 },
      { t.executePreviousRequests single (e.advance 1) [] with pc := .orphanLoad .previous },
      .nothing) := by
  obtain ⟨hprevious, hcurrent⟩ := h.behind (.inr (by rw [hpc]; rfl))
  have hup : UpToDate own near safe (e.advance 1) (t.executePreviousRequests single (e.advance 1) []) :=
    execute_upToDate h.own hprevious hcurrent
      (fun hs => h.single (by rw [hpc]; exact hs) .current) fun _ hr => absurd hr List.not_mem_nil
  refine .quiet ⟨hup.deferred, fun k => ?_, hup.previous, fun hb => ?_, fun hs => ?_, trivial, ?_⟩
    rfl rfl rfl
  · cases k with
    | previous => exact hup.own .previous
    | current => exact hup.own .current
  · rcases hb with ⟨hb, -⟩ | hb
    · exact absurd hb Bool.false_ne_true
    · exact absurd hb Bool.false_ne_true
  · exact absurd hs Bool.false_ne_true
  · exact fun hpc => absurd hpc (by simp)

/-! ## 4. The orphan lists -/

/-- The vectors of a thread within `epoch_change_barrier_and_handle_orphans`, which goes on. -/
theorem HoldsOk.handling {stage stage' : HandleOrphans} {caller : Caller} {ds : List Deferred}
    (h : HoldsOk own near safe g nodes t) (hpc : t.pc = .handleOrphans stage single caller)
    (hds : ∀ d ∈ ds, safe d.target)
    (hlists : ListsSafe safe nodes' (.handleOrphans stage' single caller)) :
    HoldsOk own near safe g nodes'
      { t with pc := .handleOrphans stage' single caller, deferred := ds } where
  deferred := hds
  own k := h.own k
  previous := h.previous
  behind hb := h.behind (by rwa [Behind, hpc])
  single hs k r hr := by
    refine h.single ?_ k r (by cases k <;> exact hr)
    rw [hpc]
    cases caller <;> exact hs
  lists := hlists
  node hpc := absurd hpc (by simp)

/-- The first node of a list that a call holds is nowhere else. -/
theorem notMem_of_nodup {i : Nat} {ls : List (List Nat)} {O : List Nat}
    (hnodup : (↑P + ↑C + ↑(O ++ ((i :: l) :: ls).flatten) : Multiset Nat).Nodup) :
    i ∉ P ∧ i ∉ l ∧ i ∉ ls.flatten := by
  have hall : (↑P + ↑C + ↑(O ++ ((i :: l) :: ls).flatten) : Multiset Nat) =
      i ::ₘ (↑P + ↑C + ↑(O ++ (l :: ls).flatten)) := by
    simp only [List.flatten_cons, List.cons_append, ← Multiset.coe_add, ← Multiset.cons_coe,
      ← Multiset.singleton_add]
    abel
  rw [hall, Multiset.nodup_cons] at hnodup
  simp only [Multiset.mem_add, Multiset.mem_coe, List.mem_append, List.flatten_cons] at hnodup
  tauto

include h in
theorem handleOrphans_keeps {stage : HandleOrphans} {caller : Caller} (hlocal : Local q t P C H)
    (hpc : t.pc = .handleOrphans stage single caller)
    (hpassed : ∀ x, near x → safe x) (hsingle : single = true → ∀ x, safe x)
    (hlist : ListHas near q.nodes (q.orphanList .previous)) :
    Ensures (q.handleOrphans t stage single caller) (HoldsKept own near safe g q) := by
  have hnone : ∀ d ∈ t.deferred, safe d.target := h.deferred
  have hgo : ∀ {stage' : HandleOrphans},
      ListsSafe safe q.nodes (.handleOrphans stage' single caller) →
      HoldsKept own near safe g q (q, { t with pc := .handleOrphans stage' single caller }, .nothing) :=
    fun hlists => .quiet (h.handling hpc hnone hlists) rfl rfl rfl
  -- The call that has handled the orphans goes on to advance the epoch.
  have hdone : ∀ q' : Qsbr, HoldsKept own near safe g q (q', { t with pc := caller.next }, .nothing) := by
    intro q'
    have hrotated : caller.next.rotated = true := by cases caller <;> rfl
    refine .stays rfl (h.goOn rfl (fun k => by cases k <;> rfl) (fun hb => ?_) (fun hs => ?_) ?_ ?_)
      fun hfalse => absurd (hrotated.symm.trans hfalse) Bool.noConfusion
    · rcases hb with ⟨-, hne⟩ | hb
      · exact .inl ⟨by rw [hpc]; rfl, hne⟩
      · exact absurd hb (by cases caller <;> simp [Caller.next, Pc.bumping])
    · rw [hpc]
      cases caller with
      | changeEpoch e s => exact hs
      | unregisterThread word => exact absurd hs Bool.false_ne_true
    · cases caller <;> trivial
    · cases caller <;> simp [Caller.next]
  have hfree : ∀ {i : Nat} {node : ListNode} {f : Option Nat → HandleOrphans}, q.nodes i = some node →
      i ∉ P → (∀ r ∈ node.requests, safe r.pointer) →
      ListsSafe safe (q.setNode i none).nodes (.handleOrphans (f node.next) single caller) →
      Ensures (q.freeListNode t i fun next => .handleOrphans (f next) single caller)
        (HoldsKept own near safe g q) := by
    intro i node f hnode hi hrequests hlists
    rw [Qsbr.freeListNode, Qsbr.node, hnode]
    refine .ok (.stays rfl (h.handling hpc (fun d hd => ?_) hlists) fun _ _ => ?_)
    · obtain ⟨r, hr, rfl⟩ := List.mem_map.mp hd
      exact hrequests r hr
    · refine hlist.congr hlocal.previous fun a ha => Function.update_of_ne ?_ _ _
      rintro rfl
      exact hi ha
  obtain ⟨ls, hls, hH⟩ := hlocal.thread.lists
  have hnodup := hlocal.nodup
  have hlists := h.lists
  rw [hpc] at hls hlists
  unfold Qsbr.handleOrphans
  cases stage with
  | takePrevious =>
    refine .ok (.stays rfl (h.handling hpc hnone ?_) fun _ _ => ⟨[], .nil, fun _ ha => ?_⟩)
    · exact hlist.mono hpassed
    · exact absurd ha List.not_mem_nil
  | takeCurrent a =>
    exact .ok (.stays rfl (h.handling hpc hnone ⟨hlists, fun hs =>
      .of_forall hlocal.current (hsingle hs)⟩) fun _ hlist => hlist)
  | freePrevious list c =>
    cases list with
    | none =>
      refine .ok (.quiet (h.handling hpc hnone ?_) rfl rfl rfl)
      cases single with
      | false => trivial
      | true => exact hlists.2 rfl
    | some i =>
      obtain ⟨_, _, hl, hrest, rfl⟩ := List.forall₂_cons_left_iff.mp hls
      obtain ⟨l', _, hl', hnil, rfl⟩ := List.forall₂_cons_left_iff.mp hrest
      cases hnil
      obtain ⟨node, hnode, hrequests, hnext⟩ := hlists.1.split
      cases hl with
      | @cons _ _ l hnode' htail =>
        cases hnode.symm.trans hnode'
        rw [hH] at hnodup
        obtain ⟨hiP, hil, hil'⟩ := notMem_of_nodup hnodup
        have hsame : ∀ {l : List Nat}, i ∉ l → ∀ a ∈ l, (q.setNode i none).nodes a = q.nodes a := by
          rintro l hi a ha
          refine Function.update_of_ne ?_ _ _
          rintro rfl
          exact hi ha
        refine hfree (f := fun next => .freePrevious next c) hnode hiP hrequests
          ⟨hnext.congr htail (hsame hil), fun hs => (hlists.2 hs).congr hl' (hsame ?_)⟩
        simpa using hil'
  | attach c =>
    dsimp only
    split
    · exact .ok (hdone _)
    · exact .ok (hgo trivial)
  | walk b c =>
    refine .bind_any fun node => ?_
    split
    · exact .pure (hgo trivial)
    · exact .pure (hgo trivial)
  | append b c => exact .bind_any fun node => .pure (hdone _)
  | freeCurrent list =>
    cases list with
    | none => exact .ok (hdone _)
    | some i =>
      obtain ⟨_, _, hl, hnil, rfl⟩ := List.forall₂_cons_left_iff.mp hls
      cases hnil
      obtain ⟨node, hnode, hrequests, hnext⟩ := hlists.split
      cases hl with
      | @cons _ _ l hnode' htail =>
        cases hnode.symm.trans hnode'
        rw [hH] at hnodup
        obtain ⟨hiP, hil, -⟩ := notMem_of_nodup hnodup
        refine hfree (f := .freeCurrent) hnode hiP hrequests (hnext.congr htail fun a ha =>
          Function.update_of_ne ?_ _ _)
        rintro rfl
        exact hil ha

section Orphan

variable {k : Interval} {a : Nat}

/-- The node of the thread changes: the list of the previous interval does not. -/
theorem Local.list_congr (hlocal : Local q t P C H) (horphaning : Orphaning k t.pc)
    (ha : t.orphanListNode k = some a) (node : Option ListNode)
    (hlist : ListHas near q.nodes (q.orphanList .previous)) :
    ListHas near (q.setNode a node).nodes ((q.setNode a node).orphanList .previous) :=
  hlist.congr hlocal.previous fun _ hb =>
    Function.update_of_ne (hlocal.ne_own horphaning ha (.inl hb)) _ _

/-- The thread has dealt with one of its vectors. -/
theorem HoldsOk.release (h : HoldsOk own near safe g nodes t) :
    HoldsOk own near safe g nodes' { t.releaseNode k with pc := k.nextPc } := by
  refine h.goOn (by cases k <;> rfl) (fun k' => by cases k <;> cases k' <;> rfl) (fun hb => ?_)
    (fun hs => ?_) ?_ ?_
  · cases k <;> rcases hb with ⟨hb, -⟩ | hb <;> exact absurd hb Bool.false_ne_true
  · cases k <;> exact absurd hs Bool.false_ne_true
  · cases k <;> trivial
  · cases k <;> simp [Interval.nextPc]

include h in
theorem orphanLoad_keeps (hlocal : Local q t P C H) (hpc : t.pc = .orphanLoad k) :
    Ensures (q.orphanLoad t k) (HoldsKept own near safe g q) := by
  obtain ⟨a, ha⟩ := Orphaning.exists_node (.inl hpc) hlocal.thread.have_nodes
  unfold Qsbr.orphanLoad
  rw [ha]
  refine .ite (fun _ => .bind (afterOrphan_ensures _ k) ?_) fun _ => .pure ?_
  · rintro _ rfl
    exact .pure (.stays rfl h.release fun _ => hlocal.list_congr (.inl hpc) ha none)
  · refine .stays rfl ⟨?_, fun k' => ?_, ?_, fun hb => ?_, fun hs => ?_, ?_, fun hcas b hb x hx => ?_⟩
      fun _ => hlocal.list_congr (.inl hpc) ha _
    · cases k <;> exact h.deferred
    · have hown := h.own k'
      cases k <;> cases k' <;> first
        | exact hown
        | exact fun _ hr => absurd hr List.not_mem_nil
    · cases k with
      | previous => exact fun _ hr => absurd hr List.not_mem_nil
      | current => exact h.previous
    · rcases hb with ⟨hb, -⟩ | hb <;> exact absurd hb Bool.false_ne_true
    · exact absurd hs Bool.false_ne_true
    · trivial
    · -- The node has got the requests of the vector.
      obtain rfl : k = .previous := Pc.orphanCas.inj hcas
      have hba : b = a := Option.some_inj.mp (hb.symm.trans ha)
      rw [hba, requestsAt, Qsbr.setNode] at hx
      simp only [Function.update_self] at hx
      obtain ⟨r, hr, rfl⟩ := List.mem_map.mp (Multiset.mem_coe.mp hx)
      exact h.previous r hr

include h in
theorem orphanCas_keeps {spurious : Bool} (hlocal : Local q t P C H) (hpc : t.pc = .orphanCas k) :
    Ensures (q.orphanCas t k spurious) (HoldsKept own near safe g q) := by
  obtain ⟨a, ha⟩ := Orphaning.exists_node (.inr hpc) hlocal.thread.have_nodes
  obtain ⟨node, hnode, -⟩ := hlocal.thread.own k a ha
  unfold Qsbr.orphanCas
  rw [ha]
  simp only [Qsbr.node, hnode, ok_bind]
  refine .ite (fun hcas => .bind (afterOrphan_ensures _ k) ?_) fun _ => .pure ?_
  · rintro _ rfl
    refine .pure (.stays rfl h.release fun _ hlist => ?_)
    cases k with
    | previous =>
      obtain ⟨l, hl, hall⟩ := hlist
      refine ⟨a :: l, .cons hnode (hcas.1 ▸ hl), fun b hb x hx => ?_⟩
      rcases List.mem_cons.mp hb with rfl | hb
      · exact h.node hpc b ha x hx
      · exact hall b hb x hx
    | current => exact hlist
  · refine .stays rfl { h with lists := ?_, node := fun hcas b hb x hx => ?_ }
      fun _ => hlocal.list_congr (.inr hpc) ha _
    · rw [hpc]
      trivial
    · obtain rfl : k = .previous := Pc.orphanCas.inj (hpc.symm.trans hcas)
      have hba : b = a := Option.some_inj.mp (hb.symm.trans ha)
      refine h.node hcas a ha x ?_
      rw [hba, requestsAt, Qsbr.setNode] at hx
      simp only [Function.update_self] at hx
      rwa [requestsAt, hnode]

end Orphan

/-! ## 5. Every step -/

omit halone in
include h hword hp hn hok in
theorem go_keeps {spurious : Bool} (hlocal : Local q t P C H)
    (halone : t.pc.counted = true → n < 2 → ∀ x, own x → safe x)
    (hargument : t.deferred = [] → ∀ pointer, t.pc = .deallocateLoad pointer →
      own pointer ∧ (n < 2 → safe pointer))
    (hhandling : t.pc.handling = true → (∀ x, near x → safe x) ∧
      ListHas near q.nodes (q.orphanList .previous))
    (hsingle : ∀ stage caller, t.pc = .handleOrphans stage true caller → ∀ x, safe x) :
    Ensures (q.go t spurious) (HoldsKept own near safe g q) := by
  unfold Qsbr.go
  split
  · rename_i d rest hd
    refine .bind_any fun _ => .pure (.quiet ?_ rfl rfl rfl)
    have hrequests : ∀ k, QsbrPerThread.requests { t with deferred := rest } k = t.requests k :=
      fun k => by cases k <;> rfl
    exact ⟨fun d' hd' => h.deferred d' (hd ▸ List.mem_cons_of_mem d hd'),
      fun k => hrequests k ▸ h.own k, h.previous, h.behind, fun hs k => hrequests k ▸ h.single hs k,
      h.lists, h.node⟩
  · rename_i hd
    have hload : ∀ {pc : Pc}, pc.plain = true → pc.counted = t.pc.counted → pc.bumping = t.pc.bumping →
        pc.single = t.pc.single → Ensures (.ok (q, { t with pc }, .nothing) : Except Fault Qsbr.Result)
          (HoldsKept own near safe g q) := by
      intro pc hplain hcounted hbumping hsingle
      exact .ok (.quiet (h.setPc hplain (hcounted ▸ id) (hbumping ▸ id) (hsingle ▸ id)) rfl rfl rfl)
    cases hpc : t.pc with
    | paused | idle => exact .ok (.quiet h rfl rfl rfl)
    | registerLoad | changeLoad | changeBumpLoad | unregisterLoad | unregisterBumpLoad =>
      exact hload rfl (by rw [hpc]; rfl) (by rw [hpc]; rfl) (by rw [hpc]; rfl)
    | registerCas word => exact registerCas_keeps h hok hpc
    | registerSpin e => exact registerSpin_keeps h hok hpc
    | deallocateLoad pointer =>
      obtain ⟨hown, hsafe⟩ := hargument hd pointer hpc
      exact deallocateLoad_keeps h hword hp hn (halone (by rw [hpc]; rfl)) hpc hown hsafe
    | quiescentLoad => exact quiescentLoad_keeps h hword hp hn (halone (by rw [hpc]; rfl)) hpc
    | removeFetchSub e single => exact removeFetchSub_keeps h hok hpc
    | changeCas e single word => exact changeCas_keeps h hpc
    | unregisterTry word prepared =>
      exact unregisterTry_keeps h hword hp hn (halone (by rw [hpc]; rfl)) hpc
    | changeBumpStore e single count => exact changeBumpStore_keeps h hok hpc
    | unregisterBumpStore e single count => exact .ok (unregisterBumpStore_keeps h hpc)
    | handleOrphans stage single caller =>
      obtain ⟨hpassed, hlist⟩ := hhandling (by rw [hpc]; rfl)
      refine handleOrphans_keeps h hlocal hpc hpassed ?_ hlist
      rintro rfl
      exact hsingle stage caller hpc
    | orphanLoad k => exact orphanLoad_keeps h hlocal hpc
    | orphanCas k => exact orphanCas_keeps h hlocal hpc

end Step

end HoldsOk

end Unodb
