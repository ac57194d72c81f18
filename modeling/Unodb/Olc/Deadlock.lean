import Unodb.Olc.Locking

/-!
# No deadlock among the threads of an `olc_db`

A thread that waits has no lock that another thread could wait for.
-/

namespace Unodb

namespace OlcDb

/-- How many write locks an attempt takes at most. -/
def Operation.limit {κ : Type} : Operation κ → Nat
  | .get _ => 0
  | .insert .. => 2
  | .remove _ => 3
  | .iter _ => 0

variable {κ : Type} [StoredKey κ] {t u : Nat}

theorem leaves_iterAttempt {limit fuel : Nat} {it : OlcIterator} (op : IterOperation κ) :
    Leaves limit t ∅ (op.attempt fuel it : OlcM sizes _) ∅ := by
  cases op with
  | outermost fwd => exact .bind leaves_tryOutermost fun _ => .ret
  | advance fwd =>
    simp only [IterOperation.attempt]
    split
    · exact .ret
    · exact .bind (.lift (.inr rfl)) fun _ => .bind (leaves_readKey _) fun _ =>
        .bind leaves_tryAdvance fun _ => .ret
  | resume fwd akey =>
    refine .bind leaves_trySeek fun r => ?_
    split
    · exact .ret
    · exact .ret
    · exact .bind leaves_tryAdvance fun _ => .ret
  | seek searchKey fwd =>
    refine .bind leaves_trySeek fun r => ?_
    split
    · exact .ret
    · exact .ret

theorem leaves_attempt {fuel : Nat} {it : OlcIterator} (op : Operation κ) :
    Leaves op.limit t ∅ (op.attempt t fuel it : OlcM sizes _) ∅ := by
  cases op with
  | get k =>
    refine .bind leaves_tryGet fun r => ?_
    cases r with
    | none => exact .ret
    | some value => exact .ret
  | insert k v cachedLeaf =>
    refine .bind (leaves_tryInsert (Nat.le_refl 2)) fun r => ?_
    cases r with
    | restart cachedLeaf => exact .ret
    | done changed => exact .ret
  | remove k =>
    refine .bind (leaves_tryRemove (Nat.le_refl 3)) fun r => ?_
    cases r with
    | restart cachedLeaf => exact .ret
    | done changed => exact .ret
  | iter op =>
    refine .bind (leaves_iterAttempt op) fun r => ?_
    split
    · exact .ret
    · exact .ret

/-- A lock word that one thread changes is locked by another one as before. -/
theorem LockMove.locked_iff {word word' : LockWord} (h : LockMove t word word') (hne : u ≠ t)
    (version : Nat) : word' = .locked version u ↔ word = .locked version u := by
  cases h with
  | same => rfl
  | acquire v => exact iff_of_false (by rintro ⟨⟩; exact hne rfl) (by rintro ⟨⟩)
  | release v => exact iff_of_false (by rintro ⟨⟩) (by rintro ⟨⟩; exact hne rfl)
  | retire v => exact iff_of_false (by rintro ⟨⟩) (by rintro ⟨⟩; exact hne rfl)

end OlcDb

open OlcDb

/-- Whether a thread has taken the lock for writing. -/
def LockWord.lockedBy (word : LockWord) (t : Nat) : Bool :=
  match word with
  | .locked _ t' => t' = t
  | _ => false

theorem LockWord.lockedBy_iff {word : LockWord} {t : Nat} :
    word.lockedBy t ↔ ∃ version, word = .locked version t := by
  cases word with
  | free version => exact iff_of_false Bool.false_ne_true (by rintro ⟨v, ⟨⟩⟩)
  | obsolete => exact iff_of_false Bool.false_ne_true (by rintro ⟨v, ⟨⟩⟩)
  | locked version t' =>
    constructor
    · intro h
      exact ⟨version, by rw [of_decide_eq_true h]⟩
    · rintro ⟨v, ⟨⟩⟩
      exact decide_eq_true rfl

/-- An operation of the thread has come to its end, an attempt has, or the thread is in none. -/
def OlcThread.AtExit {κ : Type} (thread : OlcThread sizes κ) : Prop :=
  match thread.running with
  | none => True
  | some (_, .ret _) => True
  | some (_, .throw e) => e.isException
  | some (_, .atomic ..) => False

/-- The thread has ended the process: an assertion failed, or its behaviour is undefined. -/
def OlcThread.Failed {κ : Type} (thread : OlcThread sizes κ) : Prop :=
  match thread.running with
  | some (_, .throw e) => e.isException = false
  | _ => False

namespace OlcSystem

variable {κ : Type} [StoredKey κ] {s s' : OlcSystem sizes κ} {t u : Nat}

/-- The event shows a thread taking a lock for writing. -/
def Event.acquires (e : Event) (t : Nat) (l : Site) : Bool :=
  match e.before l, e.after l with
  | .free version, .locked version' t' => e.thread = t && t' = t && version' = version
  | _, _ => false

/-- The event shows a thread giving a lock back with a new version or making it obsolete. -/
def Event.releases (e : Event) (t : Nat) (l : Site) : Bool :=
  match e.before l, e.after l with
  | .locked version t', .free version' => e.thread = t && t' = t && version' = version + 1
  | .locked _ t', .obsolete => e.thread = t && t' = t
  | _, _ => false

/-- What the locking of the threads promises. -/
structure LockLaw (es : List Event) (s : OlcSystem sizes κ) : Prop where
  /-- A thread executes `try_read_lock` without a write lock. -/
  reads : ∀ {t op l k}, (s.threads t).running = some (op, tryReadLock l >>= k) →
    ∀ l version, s.db.lock l ≠ .locked version t
  /-- So with every action that may wait. -/
  waits : ∀ {t op} {β : Type} {f : Choice → OlcDb sizes → Option (β × OlcDb sizes)} {k},
    (s.threads t).running = some (op, .atomic f k) → Prog.Waits f →
      ∀ l version, s.db.lock l ≠ .locked version t
  bound : ∀ {t op p}, (s.threads t).running = some (op, p) →
    ∃ hs : Finset Site, hs.card ≤ op.limit ∧
      ∀ l version, s.db.lock l = .locked version t → l ∈ hs
  /-- At an exit the thread has given back each lock as often as it has taken it, and has none. -/
  exit : ∀ {t}, (s.threads t).AtExit → ∀ l, (∀ version, s.db.lock l ≠ .locked version t) ∧
    es.countP (·.acquires t l) = es.countP (·.releases t l)
  /-- Unless the process has ended, one of the threads in an operation can go on. -/
  progress : (∀ t, ¬ (s.threads t).Failed) → (∃ t, (s.threads t).running ≠ none) →
    ∃ e s', Step s e s' ∧ (s.threads e.thread).running ≠ none

/-- What holds of a thread at any time. -/
def ThreadOk (db : OlcDb sizes) (t : Nat) (thread : OlcThread sizes κ) : Prop :=
  match thread.running with
  | none => db.Holds t ∅
  | some (op, p) => (locking op.limit).Safe t (fun _ db => db.Holds t ∅)
      (fun e db => e.isException → db.Holds t ∅) p db ∧
    ∃ hs : Finset Site, hs.card ≤ op.limit ∧ db.Holds t hs

/-- The invariant of the threads. -/
def Disciplined (s : OlcSystem sizes κ) : Prop := ∀ t, ThreadOk s.db t (s.threads t)

omit [StoredKey κ] in
theorem ThreadOk.of_running {db : OlcDb sizes} {thread : OlcThread sizes κ} {op : Operation κ}
    {p : OlcM sizes (OlcIterator × Progress (Operation κ))} (h : ThreadOk db t thread)
    (hrun : thread.running = some (op, p)) :
    (locking op.limit).Safe t (fun _ db => db.Holds t ∅)
      (fun e db => e.isException → db.Holds t ∅) p db ∧
    ∃ hs : Finset Site, hs.card ≤ op.limit ∧ db.Holds t hs := by
  unfold ThreadOk at h
  rw [hrun] at h
  exact h

/-- A thread that begins an attempt. -/
theorem ThreadOk.attempt {db : OlcDb sizes} {it : OlcIterator} (op : Operation κ) (fuel : Nat)
    (h : db.Holds t ∅) : ThreadOk db t ⟨it, some (op, op.attempt t fuel it)⟩ := by
  refine ⟨?_, ∅, Nat.zero_le _, h⟩
  exact (leaves_attempt op (Nat.zero_le _) db h).mono (fun _ _ hw => hw.2) fun _ _ he => he

omit [StoredKey κ] in
/-- What holds of a thread is left alone by the others. -/
theorem ThreadOk.other {db db' : OlcDb sizes} {thread : OlcThread sizes κ} (h : ThreadOk db u thread)
    (hmove : ∀ l, LockMove t (db.lock l) (db'.lock l)) (hne : u ≠ t) : ThreadOk db' u thread := by
  have hrely : ∀ l version, db'.lock l = .locked version u ↔ db.lock l = .locked version u :=
    fun l => (hmove l).locked_iff hne
  unfold ThreadOk at h ⊢
  cases hrun : thread.running with
  | none =>
    rw [hrun] at h
    exact h.keeps hrely
  | some r =>
    rw [hrun] at h
    obtain ⟨hsafe, hs, hcard, hholds⟩ := h
    exact ⟨hsafe.other id hrely trivial, hs, hcard, hholds.keeps hrely⟩

omit [StoredKey κ] in
theorem ThreadOk.of_exit {db : OlcDb sizes} {thread : OlcThread sizes κ} (h : ThreadOk db t thread)
    (hexit : thread.AtExit) : db.Holds t ∅ := by
  unfold OlcThread.AtExit at hexit
  cases hrun : thread.running with
  | none =>
    unfold ThreadOk at h
    rw [hrun] at h
    exact h
  | some r =>
    obtain ⟨op, p⟩ := r
    have hsafe := (h.of_running hrun).1
    rw [hrun] at hexit
    cases p with
    | ret a => exact hsafe db (.refl db) trivial
    | throw e => exact hsafe db (.refl db) trivial hexit
    | atomic f k => exact absurd hexit id

omit [StoredKey κ] in
theorem Disciplined.setThread (h : s.Disciplined) {thread : OlcThread sizes κ}
    (hok : ThreadOk s.db t thread) : (s.setThread t thread).Disciplined := by
  intro u
  by_cases heq : u = t
  · rw [heq, setThread_self]
    exact hok
  · rw [setThread_of_ne s _ heq]
    exact h u

/-- A step keeps the discipline, and its thread changes lock words as it should. -/
theorem Disciplined.moves (h : s.Disciplined) (hmoves : Moves t s s') :
    s'.Disciplined ∧ ∀ l, LockMove t (s.db.lock l) (s'.db.lock l) := by
  cases hmoves with
  | start op fuel hnone hit =>
    refine ⟨h.setThread (.attempt op fuel ?_), fun l => .same _⟩
    have hok := h t
    unfold ThreadOk at hok
    rwa [hnone] at hok
  | @act op β f k c b db hrun hf =>
    obtain ⟨hsafe, -⟩ := (h t).of_running hrun
    obtain ⟨db', rfl, -, ⟨hmove, hs, hcard, hholds⟩, hk⟩ := hsafe.act trivial hf
    refine ⟨fun u => ?_, hmove⟩
    by_cases heq : u = t
    · rw [heq]
      show ThreadOk db' t ((s.setThread t _).threads t)
      rw [setThread_self]
      exact ⟨hk, hs, hcard, hholds⟩
    · show ThreadOk db' u ((s.setThread t _).threads u)
      rw [setThread_of_ne s _ heq]
      exact (h u).other hmove heq
  | retry fuel hrun =>
    refine ⟨h.setThread (.attempt _ fuel ?_), fun l => .same _⟩
    refine (h t).of_exit ?_
    unfold OlcThread.AtExit
    rw [hrun]
    trivial
  | finish hrun =>
    refine ⟨h.setThread ((h t).of_exit ?_), fun l => .same _⟩
    unfold OlcThread.AtExit
    rw [hrun]
    trivial
  | unwind hrun hexc =>
    refine ⟨h.setThread ((h t).of_exit ?_), fun l => .same _⟩
    unfold OlcThread.AtExit
    rw [hrun]
    exact hexc

/-! ## 2. Taken and given back -/

omit [StoredKey κ] in
/-- Seen from one lock and one thread, a step takes the lock, gives it back or does neither. -/
theorem Event.count_step {e : Event} (hmove : ∀ l, LockMove e.thread (e.before l) (e.after l))
    (t : Nat) (l : Site) :
    ((e.before l).lockedBy t).toNat + (e.acquires t l).toNat =
      (e.releases t l).toNat + ((e.after l).lockedBy t).toNat := by
  obtain ⟨u, before, after⟩ := e
  have hl : LockMove u (before l) (after l) := hmove l
  simp only [Event.acquires, Event.releases]
  generalize before l = word at hl
  generalize after l = word' at hl
  by_cases heq : u = t
  · subst heq
    cases hl with
    | same word => cases word <;> simp [LockWord.lockedBy]
    | acquire v => simp [LockWord.lockedBy]
    | release v => simp [LockWord.lockedBy]
    | retire v => simp [LockWord.lockedBy]
  · cases hl with
    | same word => cases word <;> simp [LockWord.lockedBy]
    | acquire v => simp [LockWord.lockedBy, heq]
    | release v => simp [LockWord.lockedBy, heq]
    | retire v => simp [LockWord.lockedBy, heq]

omit [StoredKey κ] in
theorem disciplined_init : (init sizes : OlcSystem sizes κ).Disciplined := fun _ _ =>
  iff_of_false (by rintro ⟨version, ⟨⟩⟩) (Finset.notMem_empty _)

/-- In a run the threads keep to the discipline, and what a thread has not given back it has. -/
theorem disciplined_of_run {es : List Event} (hrun : Run Step (init sizes) es s) :
    s.Disciplined ∧ ∀ t l, es.countP (·.acquires t l) =
      es.countP (·.releases t l) + ((s.db.lock l).lockedBy t).toNat := by
  have hstart : (init sizes : OlcSystem sizes κ).Disciplined ∧
      ∀ t l, ([] : List Event).countP (·.acquires t l) =
      ([] : List Event).countP (·.releases t l) +
        (((init sizes : OlcSystem sizes κ).db.lock l).lockedBy t).toNat :=
    ⟨disciplined_init, fun _ _ => rfl⟩
  refine Run.invariant_with (I := fun es s => s.Disciplined ∧ ∀ t l, es.countP (·.acquires t l) =
    es.countP (·.releases t l) + ((s.db.lock l).lockedBy t).toNat) ?_ hrun hstart
  rintro es s ⟨u, before, after⟩ s' ⟨hs, hcount⟩ ⟨hmoves, hbefore, hafter⟩
  obtain ⟨hs', hmove⟩ := hs.moves hmoves
  refine ⟨hs', fun t l => ?_⟩
  obtain rfl : before = s.db.lock := hbefore
  obtain rfl : after = s'.db.lock := hafter
  have hstep : ((s.db.lock l).lockedBy t).toNat + _ = _ + ((s'.db.lock l).lockedBy t).toNat :=
    Event.count_step (e := ⟨u, s.db.lock, s'.db.lock⟩) hmove t l
  have hone : ∀ b : Bool, (if b = true then 1 else 0) = b.toNat := by decide
  rw [List.countP_append, List.countP_append, hcount t l, List.countP_singleton,
    List.countP_singleton, hone, hone]
  omega

theorem ne_locked_of_holds {db : OlcDb sizes} (h : db.Holds t ∅) (l : Site) (version : Nat) :
    db.lock l ≠ .locked version t := fun heq =>
  absurd ((h l).mp ⟨version, heq⟩) (Finset.notMem_empty l)

/-- A thread in an operation that does not wait for another one can go on. -/
theorem exists_step {op : Operation κ} {p : OlcM sizes (OlcIterator × Progress (Operation κ))}
    (hrun : (s.threads t).running = some (op, p)) (hfailed : ¬ (s.threads t).Failed)
    (hsome : ∀ {β : Type} {f : Choice → OlcDb sizes → Option (β × OlcDb sizes)} {k}, p = .atomic f k →
      (f {} s.db).isSome) : ∃ s', Moves t s s' := by
  cases p with
  | ret a =>
    obtain ⟨it, progress⟩ := a
    cases progress with
    | again op' => exact ⟨_, .retry 0 hrun⟩
    | done response => exact ⟨_, .finish hrun⟩
  | throw e =>
    refine ⟨_, .unwind hrun ?_⟩
    by_contra hexc
    refine hfailed ?_
    unfold OlcThread.Failed
    rw [hrun]
    exact Bool.eq_false_of_not_eq_true hexc
  | atomic f k =>
    obtain ⟨⟨b, db⟩, hf⟩ := Option.isSome_iff_exists.mp (hsome rfl)
    exact ⟨_, .act hrun hf⟩

/-- Some thread in an operation can go on: who waits for a lock waits for a thread that has one, and
    that thread does not wait. -/
theorem Disciplined.progress (h : s.Disciplined) (hfailed : ∀ t, ¬ (s.threads t).Failed)
    (hbusy : ∃ t, (s.threads t).running ≠ none) :
    ∃ t s', (s.threads t).running ≠ none ∧ Moves t s s' := by
  obtain ⟨t, ht⟩ := hbusy
  obtain ⟨⟨op, p⟩, hrun⟩ := Option.ne_none_iff_exists'.mp ht
  by_cases hwaits : ∃ (β : Type) (f : Choice → OlcDb sizes → Option (β × OlcDb sizes)) (k : _),
      p = .atomic f k ∧ f {} s.db = none
  · obtain ⟨β, f, k, rfl, hnone⟩ := hwaits
    -- The lock that the thread waits for belongs to another thread, which is in an operation.
    obtain ⟨l, version, u, hlocked⟩ := ((h t).of_running hrun).1.blocked trivial hnone
    have hu : (s.threads u).running ≠ none := by
      intro hidle
      have hok := h u
      unfold ThreadOk at hok
      rw [hidle] at hok
      exact ne_locked_of_holds hok l version hlocked
    obtain ⟨⟨op', p'⟩, hrun'⟩ := Option.ne_none_iff_exists'.mp hu
    obtain ⟨s', hmoves⟩ := exists_step hrun' (hfailed u) fun {β f k} hp => by
      by_contra hsome
      have hnone' : f {} s.db = none := Option.not_isSome_iff_eq_none.mp hsome
      subst hp
      have hmay := ((h u).of_running hrun').1.waits trivial ⟨{}, s.db, hnone'⟩
      exact ne_locked_of_holds hmay l version hlocked
    exact ⟨u, s', hu, hmoves⟩
  · obtain ⟨s', hmoves⟩ := exists_step hrun (hfailed t) fun {β f k} hp => by
      by_contra hsome
      exact hwaits ⟨β, f, k, hp, Option.not_isSome_iff_eq_none.mp hsome⟩
    exact ⟨t, s', ht, hmoves⟩

omit [StoredKey κ] in
theorem waits_tryReadLock (l : Site) : Prog.Waits fun (_ : Choice) (db : OlcDb sizes) =>
    match db.lock l with
    | .free version => some (some (⟨l, version⟩ : CriticalSection), db)
    | .obsolete => some (none, db)
    | .locked .. => none := by
  refine ⟨{}, (OlcDb.empty sizes).setLock l (.locked 0 0), ?_⟩
  simp only [setLock_lock_self]

/-- The threads on an `olc_db` do not deadlock. -/
theorem lockLaw_of_run {es : List Event} (hrun : Run Step (init sizes) es s) : LockLaw es s := by
  obtain ⟨h, hcount⟩ := disciplined_of_run hrun
  have hwait : ∀ {t op} {β : Type} {f : Choice → OlcDb sizes → Option (β × OlcDb sizes)} {k},
      (s.threads t).running = some (op, .atomic f k) → Prog.Waits f →
        ∀ l version, s.db.lock l ≠ .locked version t := fun {t op β f k} hat hwaits =>
    ne_locked_of_holds (((h t).of_running hat).1.waits trivial hwaits)
  constructor
  · intro t op l k hat
    exact hwait hat (waits_tryReadLock l)
  · exact hwait
  · intro t op p hat
    obtain ⟨-, hs, hcard, hholds⟩ := (h t).of_running hat
    exact ⟨hs, hcard, fun l version hl => (hholds l).mp ⟨version, hl⟩⟩
  · intro t hexit l
    have hnone := ne_locked_of_holds ((h t).of_exit hexit) l
    refine ⟨hnone, ?_⟩
    have hfree : (s.db.lock l).lockedBy t = false := by
      refine Bool.eq_false_iff.mpr fun hlocked => ?_
      obtain ⟨version, hl⟩ := LockWord.lockedBy_iff.mp hlocked
      exact hnone version hl
    rw [hcount t l, hfree]
    rfl
  · intro hfailed hbusy
    obtain ⟨t, s', hbusy', hmoves⟩ := h.progress hfailed hbusy
    exact ⟨⟨t, s.db.lock, s'.db.lock⟩, s', ⟨hmoves, rfl, rfl⟩, hbusy'⟩

/-- Thread 0 inserts keys of which the first two get an inner node of their own, below that of the
    third. -/
def forked : List (Nat × Turn U64Key) :=
  Turn.call 0 (.insert (U64Key.make 0x0001000000000000) [7] none) 7 ++
  Turn.call 0 (.insert (U64Key.make 0x0002000000000000) [] none) 15 ++
  Turn.call 0 (.insert (U64Key.make 0x0200000000000000) [] none) 18

/-- Thread 0 removes a key and has taken the locks of the root pointer, of an inner node and of the
    leaf; thread 1 begins to insert another key and waits for the first of them. -/
theorem lockLaw_of_run_waiting : ∃ es, ∃ s : OlcSystem .olcDb U64Key, Run Step (init .olcDb) es s ∧
    s.db.lock .root = .locked 3 0 ∧ s.db.lock (.node 4) = .locked 0 0 ∧
    s.db.lock (.node 3) = .locked 0 0 ∧ (s.turn 1 (.go {})).isNone ∧ LockLaw es s := by
  have hplay : ((play (forked ++ Turn.call 0 (.remove (U64Key.make 0x0200000000000000)) 15 ++
      Turn.call 1 (.insert (U64Key.make 0x0003000000000000) [] none) 0) (init .olcDb)).any fun s =>
        s.db.lock .root = .locked 3 0 ∧ s.db.lock (.node 4) = .locked 0 0 ∧
          s.db.lock (.node 3) = .locked 0 0 ∧ (s.turn 1 (.go {})).isNone) = true := by
    decide +kernel
  obtain ⟨s, hs, hlocks⟩ := (Option.any_eq_true _ _).mp hplay
  obtain ⟨hroot, hnode, hleaf, hwaits⟩ := of_decide_eq_true hlocks
  obtain ⟨es, hrun⟩ := exists_run_of_play hs
  exact ⟨es, s, hrun, hroot, hnode, hleaf, hwaits, lockLaw_of_run hrun⟩

end OlcSystem

end Unodb
