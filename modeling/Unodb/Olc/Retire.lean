import Unodb.Olc.Linear

/-!
# The nodes that threads retire

What becomes of the nodes and the locks of an `olc_db` that threads share: how an attempt may fail,
what is passed to `on_next_epoch_deallocate` and when it can no longer be reached, and what is left
when no thread is in an operation.
-/

namespace Unodb

open World OlcDb

namespace OlcSystem

variable {only : Prop} {t : Nat} {w : World sizes} {s s₀ s₁ : OlcSystem sizes U64Key} {m : WatchedMap}

/-! ## 1. Failures -/

/-- An attempt that fails but for an exception is one of an iterator or fails an assertion. -/
theorem mayFail_of_run {os t op e} (hrun : Run (CallStep only) (init sizes) os s)
    (hthrow : (s.threads t).running = some (op, .throw e)) :
    e.isException ∨ op.request.MayFail e := by
  obtain ⟨w, m, -, hsees, -⟩ := sees_of_run hrun
  obtain ⟨hop, -, hsafe⟩ := hsees.safe hthrow
  obtain ⟨kit, hhas, hkit⟩ := hsafe w (.refl w) hsees.inv
  have hrequest : kit.request = op.request := hhas.request.symm.trans hop.symm
  rw [← hrequest]
  exact hkit.exception

/-- Thread 1 has loaded the length of the prefix of an inner node when thread 0 removes a key, and the
    node gets a longer prefix; the key that thread 1 inserts shares more with it than that length. -/
def surprised : List (Nat × Turn U64Key) :=
  forked ++ Turn.call 1 (.insert (U64Key.make 5) [] none) 12 ++
    Turn.call 0 (.remove (U64Key.make 0x0200000000000000)) 24 ++ [(1, .go {})]

/-- The assertion that the two lengths are the same fails. -/
theorem mayFail_of_run_surprised : ∃ s : OlcSystem .olcDb U64Key, ∃ op,
    op.request = .insert [0, 0, 0, 0, 0, 0, 0, 5] [] ∧
    (s.threads 1).running = some (op, .throw .assertion) ∧
    (Fault.assertion.isException ∨ op.request.MayFail .assertion) := by
  have hplay : ((play surprised (init .olcDb)).any fun s => (s.threads 1).running.any fun r =>
      decide (r.1.request = .insert [0, 0, 0, 0, 0, 0, 0, 5] []) &&
        decide (r.2.thrown = some .assertion)) = true := by
    decide +kernel
  obtain ⟨s, hs, hrunning⟩ := (Option.any_eq_true _ _).mp hplay
  obtain ⟨⟨op, p⟩, hrunning, hend⟩ := (Option.any_eq_true _ _).mp hrunning
  obtain ⟨hrequest, hthrown⟩ := Bool.and_eq_true_iff.mp hend
  obtain rfl := Prog.eq_throw (of_decide_eq_true hthrown)
  have hrun : Run (CallStep False) (init .olcDb) _ s :=
    run_of_play hs (by simp [surprised, forked, Turn.call, Turn.Begins, Operation.Begins])
  exact ⟨s, op, of_decide_eq_true hrequest, hrunning, mayFail_of_run hrun hrunning⟩

/-! ## 2. Retired nodes -/

/-- What holds of the nodes that have been passed to `on_next_epoch_deallocate`. -/
structure RetireLaw (db : OlcDb sizes) : Prop where
  obsolete : ∀ {t p}, (t, p) ∈ db.retired → db.lock (.node p.addr) = .obsolete
  /-- Child pointers lead to it only through places that its thread has locked. -/
  guarded : ∀ {t p}, (t, p) ∈ db.retired →
    ¬ db.ReachAvoiding (fun l => ∃ v, db.lock l = .locked v t) p
  once : (db.retired.map (·.2.addr)).Nodup

theorem Sees.retires (h : Sees only s w m) (hmoves : Moves t s s₁) :
    s₁.db.retired = s.db.retired ∨
      ∃ p, s₁.db.retired = (t, p) :: s.db.retired ∧ MayRetire s.db t p := by
  cases hmoves with
  | start => exact .inl rfl
  | @act op β f k choice b db hat hf =>
    obtain ⟨-, -, hsafe⟩ := h.safe hat
    rw [← h.db] at hf
    obtain ⟨w', hdb, -, hguar, -⟩ := hsafe.act h.inv hf
    have hretired := hguar.retired
    rw [h.db, show w'.db = db from hdb] at hretired
    exact hretired
  | retry => exact .inl rfl
  | finish => exact .inl rfl
  | unwind => exact .inl rfl

theorem retireLaw_of_run {os} (hrun : Run (CallStep only) (init sizes) os s) :
    RetireLaw s.db ∧ ∀ t s', Moves t s s' → s'.db.retired = s.db.retired ∨
      ∃ p, s'.db.retired = (t, p) :: s.db.retired ∧ MayRetire s.db t p := by
  obtain ⟨w, m, -, hsees, -⟩ := sees_of_run hrun
  refine ⟨?_, fun t s' hmoves => hsees.retires hmoves⟩
  rw [← hsees.db]
  exact ⟨fun hp => (hsees.inv.obsolete _).mpr (hsees.inv.doomed_of_retired hp),
    fun hp => hsees.inv.guarded_of_doomed (hsees.inv.retired hp), hsees.inv.nodup⟩

/-- A thread has retired two nodes while another one was at work below them. -/
theorem retireLaw_of_run_overtaken : ∃ s : OlcSystem .olcDb U64Key,
    s.db.retired = [(0, ⟨4, .i4⟩), (0, ⟨3, .leaf⟩)] ∧
    RetireLaw s.db ∧ ∀ t s', Moves t s s' → s'.db.retired = s.db.retired ∨
      ∃ p, s'.db.retired = (t, p) :: s.db.retired ∧ MayRetire s.db t p := by
  obtain ⟨os, s, hrun, -, -, hretired⟩ := exists_run_overtaken
  exact ⟨s, hretired, retireLaw_of_run hrun⟩

/-- A thread that retires a node has made it obsolete, and nobody has retired it before.  Child
    pointers lead to it only through a place whose write lock the thread has, and only until the lock
    is given back. -/
theorem retires_of_run {os₀ p} (hreach : Run (CallStep only) (init sizes) os₀ s₀)
    (hmoves : Moves t s₀ s₁) (hretired : s₁.db.retired = (t, p) :: s₀.db.retired) :
    s₀.db.lock (.node p.addr) = .obsolete ∧
    (∀ u q, (u, q) ∈ s₀.db.retired → q.addr ≠ p.addr) ∧
    ∃ l version, ∀ s, (s = s₀ ∨ ∃ os, Run (CallStep only) s₁ os s) → s.db.Reachable p →
      s.db.lock l = .locked version t ∧ ¬ s.db.ReachAvoiding (· = l) p := by
  obtain ⟨w₀, m₀, -, hsees₀, -⟩ := sees_of_run hreach
  have hne : s₁.db.retired ≠ s₀.db.retired := fun heq =>
    List.cons_ne_self _ _ (hretired.symm.trans heq)
  have hstep : CallStep only s₀ none s₁ := by
    cases hmoves with
    | start => exact absurd rfl hne
    | act hat hf => exact .go (.act hat hf) hat
    | retry => exact absurd rfl hne
    | finish => exact absurd rfl hne
    | unwind => exact absurd rfl hne
  have hmay : MayRetire s₀.db t p := by
    rcases hsees₀.retires hmoves with heq | ⟨q, hq, hmay⟩
    · exact absurd heq hne
    · obtain ⟨-, rfl⟩ := Prod.mk.inj (List.cons.inj (hretired.symm.trans hq)).1
      exact hmay
  obtain ⟨w₁, m₁, -, hsees₁, -, -, hdoomed₁⟩ := hsees₀.step hstep
  -- The node was obsolete already, by the same thread and under the same lock.
  obtain ⟨d, hd⟩ : ∃ d, w₀.doomed p.addr = some d := by
    refine Option.ne_none_iff_exists'.mp ((hsees₀.inv.obsolete _).mp ?_)
    rw [hsees₀.db]
    exact hmay.obsolete
  have hthread : d.thread = t := by
    have hin : (t, p) ∈ w₁.db.retired := by
      rw [hsees₁.db, hretired]
      exact List.mem_cons_self
    obtain ⟨guard, hguard⟩ := hsees₁.inv.retired hin
    rw [hdoomed₁ hd, Option.some_inj] at hguard
    rw [hguard]
  have hheld : ∀ {w : World sizes} {s m}, Sees only s w m → w.doomed p.addr = some d →
      s.db.Reachable p →
        s.db.lock d.guard.lock = .locked d.guard.version t ∧ ¬ s.db.ReachAvoiding (· = d.guard.lock) p := by
    intro w s m hsees hdoomed hp
    rw [← hsees.db] at hp ⊢
    obtain ⟨slot, hread⟩ := hsees.inv.read_of_avoiding hp
    rw [← hthread]
    exact ⟨(hsees.inv.held_at hdoomed hread).1, hsees.inv.not_avoiding_of_doomed hdoomed⟩
  refine ⟨hmay.obsolete, hmay.first, d.guard.lock, d.guard.version, fun s hs hp => ?_⟩
  rcases hs with rfl | ⟨os, hrun⟩
  · exact hheld hsees₀ hd hp
  · obtain ⟨w, m, -, hsees, -, -, hdoomed⟩ := hsees₁.run hrun
    exact hheld hsees (hdoomed (hdoomed₁ hd)) hp

/-- Thread 0 has locked the root pointer, a node and its leaf and has made both obsolete; thread 1 is
    at work below the node. -/
def retiring : List (Nat × Turn U64Key) :=
  forked ++ Turn.call 1 (.insert (U64Key.make 0x0003000000000000) [9] none) 10 ++
    Turn.call 0 (.remove (U64Key.make 0x0200000000000000)) 18

/-- The leaf is retired while child pointers still lead to it. -/
theorem retires_of_run_retiring : ∃ s₀ s₁ : OlcSystem .olcDb U64Key,
    s₁.db.retired = (0, ⟨3, .leaf⟩) :: s₀.db.retired ∧ s₀.db.Reachable ⟨3, .leaf⟩ ∧
    s₀.db.lock (.node 3) = .obsolete ∧ (∀ u q, (u, q) ∈ s₀.db.retired → q.addr ≠ 3) ∧
    ∃ l version, ∀ s, (s = s₀ ∨ ∃ os, Run (CallStep False) s₁ os s) → s.db.Reachable ⟨3, .leaf⟩ →
      s.db.lock l = .locked version 0 ∧ ¬ s.db.ReachAvoiding (· = l) ⟨3, .leaf⟩ := by
  have hplay : ((play retiring (init .olcDb)).any fun s₀ => (s₀.turn 0 (.go {})).any fun s₁ =>
      s₁.db.retired = (0, ⟨3, .leaf⟩) :: s₀.db.retired ∧ s₀.db.mem.root = some ⟨4, .i4⟩ ∧
        ((s₀.db.mem.deref ⟨4, .i4⟩).bind fun body => match body with
          | .inode n => n.child 2
          | .leaf _ _ => none) = some ⟨3, .leaf⟩) = true := by
    decide +kernel
  obtain ⟨s₀, hs₀, hrest⟩ := (Option.any_eq_true _ _).mp hplay
  obtain ⟨s₁, hs₁, hend⟩ := (Option.any_eq_true _ _).mp hrest
  obtain ⟨hretired, hroot, hleaf⟩ := of_decide_eq_true hend
  have hreach : Run (CallStep False) (init .olcDb) _ s₀ :=
    run_of_play hs₀ (by simp [retiring, forked, Turn.call, Turn.Begins, Operation.Begins])
  obtain ⟨body, hbody, hchild⟩ := Option.bind_eq_some_iff.mp hleaf
  cases body with
  | leaf k v => cases hchild
  | inode n =>
    exact ⟨s₀, s₁, hretired, .child (.root hroot id) hbody hchild id,
      retires_of_run hreach (.of_turn hs₁) hretired⟩

/-! ## 3. Quiescence -/

/-- An `olc_db` that no thread is at work on: no lock is taken, every node is linked or has been
    retired, and the statistics count those that are linked. -/
structure Settled (db : OlcDb sizes) : Prop where
  free : ∀ l, (∃ v, db.lock l = .free v) ∨ db.lock l = .obsolete
  live : ∀ {p}, db.Reachable p → ∃ v, db.lock (.node p.addr) = .free v
  kept : ∀ a, db.mem.heap a ≠ none ↔
    (∃ p, db.Reachable p ∧ p.addr = a) ∨ ∃ t p, (t, p) ∈ db.retired ∧ p.addr = a
  linked : ∀ a, db.counted.heap a ≠ none ↔ ∃ p, db.Reachable p ∧ p.addr = a
  counted : Accounted sizes db.counted db.next db.stats

/-- A thread that is in no operation has nothing. -/
theorem Sees.has_of_idle (h : Sees only s w m) (hidle : (s.threads t).running = none) :
    ∃ q did, w.Has t { request := q, did } := by
  have hcaller := h.caller t
  generalize s.threads t = thread at hcaller hidle
  generalize m.caller t = c at hcaller
  cases hcaller with
  | running => cases hidle
  | idle hhas => exact ⟨_, _, hhas⟩

/-- A node that is allocated is linked or has been retired. -/
theorem Sees.kept_iff (h : Sees only s w m) (hquiet : ∀ t, (s.threads t).running = none) (a : Nat) :
    w.db.mem.heap a ≠ none ↔
      (∃ p, w.db.Reachable p ∧ p.addr = a) ∨ ∃ t p, (t, p) ∈ w.db.retired ∧ p.addr = a := by
  constructor
  · intro ha
    rcases h.inv.owned ha with hin | hpriv | hdoomed
    · obtain ⟨body, hbody⟩ := Option.ne_none_iff_exists'.mp hin
      have hnode : w.tree.graph.node ⟨a, body.type⟩ = some body.view :=
        congrArg (Option.map Body.view) (Tree.deref_eq_some_iff.mpr ⟨hbody, rfl⟩)
      obtain ⟨slot, hread⟩ := h.inv.tree.graph.pointed hnode
      exact .inl ⟨_, h.inv.reachable_of_read (h.live hquiet) hread, rfl⟩
    · obtain ⟨t, ht⟩ := Option.ne_none_iff_exists'.mp hpriv
      obtain ⟨q, did, hhas⟩ := h.has_of_idle (hquiet t)
      exact absurd ((hhas.nodes a).mp ht) List.not_mem_nil
    · obtain ⟨⟨t, guard⟩, hd⟩ := Option.ne_none_iff_exists'.mp hdoomed
      obtain ⟨q, did, hhas⟩ := h.has_of_idle (hquiet t)
      by_contra hnot
      refine absurd ((hhas.unretired a).mpr ⟨⟨guard, hd⟩, fun p hp ha => ?_⟩) List.not_mem_nil
      exact hnot (.inr ⟨t, p, hp, ha⟩)
  · rintro (⟨p, hp, rfl⟩ | ⟨t, p, hp, rfl⟩)
    · exact h.inv.mem_of_tree (h.inv.tree_of_reachable hp)
    · exact h.inv.doomed_mem (h.inv.doomed_of_retired hp)

theorem Sees.free (h : Sees only s w m) (hquiet : ∀ t, (s.threads t).running = none) (l : Site) :
    (∃ v, w.db.lock l = .free v) ∨ w.db.lock l = .obsolete := by
  cases hword : w.db.lock l with
  | free v => exact .inl ⟨v, rfl⟩
  | obsolete => exact .inr rfl
  | locked v t =>
    obtain ⟨q, did, hhas⟩ := h.has_of_idle (hquiet t)
    exact absurd ((hhas.locks ⟨l, v⟩).mp hword) List.not_mem_nil

theorem Sees.settled (h : Sees only s w m) (hquiet : ∀ t, (s.threads t).running = none) :
    Settled w.db where
  free := h.free hquiet
  live {p} hp := (h.free hquiet _).resolve_right fun hobsolete =>
    (h.inv.obsolete _).mp hobsolete (h.live hquiet (h.inv.tree_of_reachable hp))
  kept := h.kept_iff hquiet
  linked a := by
    rw [counted_heap]
    split
    · rename_i hmem
      obtain ⟨⟨t, q⟩, hq, rfl⟩ := List.mem_map.mp hmem
      refine iff_of_false (fun hne => hne rfl) ?_
      rintro ⟨p, hp, hpq⟩
      exact h.inv.doomed_of_retired hq (hpq ▸ h.live hquiet (h.inv.tree_of_reachable hp))
    · rename_i hmem
      rw [h.kept_iff hquiet a, or_iff_left]
      rintro ⟨t, p, hp, rfl⟩
      exact hmem (List.mem_map.mpr ⟨_, hp, rfl⟩)
  counted := h.inv.counted

theorem settled_of_run {os} (hrun : Run (CallStep only) (init sizes) os s)
    (hquiet : ∀ t, (s.threads t).running = none) : Settled s.db := by
  obtain ⟨w, m, -, hsees, -⟩ := sees_of_run hrun
  rw [← hsees.db]
  exact hsees.settled hquiet

/-- After a removal that has collapsed a node and an insertion that has had to restart. -/
theorem settled_of_run_overtaken : ∃ s : OlcSystem .olcDb U64Key,
    s.db.retired = [(0, ⟨4, .i4⟩), (0, ⟨3, .leaf⟩)] ∧ Settled s.db := by
  obtain ⟨os, s, hrun, -, hidle, hretired⟩ := exists_run_overtaken
  exact ⟨s, hretired, settled_of_run hrun hidle⟩

end OlcSystem

end Unodb
