import Unodb.Util.Runs
import Unodb.Olc.Iterator

/-!
# Threads on an `olc_db`

Any number of threads call `get`, `insert`, `remove` and the operations of their iterators.  An
operation is a loop of attempts (`get_internal`, `insert_internal`, `remove_internal` and the loops
of the iterator), and the actions of the attempts of different threads come in any order.
-/

namespace Unodb

namespace OlcDb

/-- What an operation of a thread has still to do. -/
inductive Operation (κ : Type) where
  | get (k : κ)
  | insert (k : κ) (v : List UInt8) (cachedLeaf : Option NodePtr)
  | remove (k : κ)
  | iter (op : IterOperation κ)

/-- An attempt of thread `me`. -/
def Operation.attempt {κ : Type} [StoredKey κ] (me fuel : Nat) (it : OlcIterator) :
    Operation κ → OlcM sizes (OlcIterator × Progress (Operation κ))
  | .get k => do
    match ← tryGet k with
    | some value => return (it, .done (.found value))
    | none => return (it, .again (.get k))
  | .insert k v cachedLeaf => do
    match ← tryInsert me k v cachedLeaf with
    | .done changed => return (it, .done (.updated changed))
    -- The leaf that has been made is kept for the next attempt.
    | .restart cachedLeaf => return (it, .again (.insert k v cachedLeaf))
  | .remove k => do
    match ← tryRemove me k with
    | .done changed => return (it, .done (.updated changed))
    | .restart _ => return (it, .again (.remove k))
  | .iter op => do
    match ← op.attempt fuel it with
    | (it, .done response) => return (it, .done response)
    | (it, .again op) => return (it, .again (.iter op))

end OlcDb

/-- A thread: its iterator, and what it runs when it is in an operation. -/
structure OlcThread (sizes : Sizes) (κ : Type) where
  iterator : OlcIterator
  running : Option (OlcDb.Operation κ × OlcM sizes (OlcIterator × OlcDb.Progress (OlcDb.Operation κ)))

/-- An `olc_db` and the threads that use it. -/
structure OlcSystem (sizes : Sizes) (κ : Type) where
  db : OlcDb sizes
  threads : Nat → OlcThread sizes κ

namespace OlcSystem

variable {κ : Type}

def init (sizes : Sizes) : OlcSystem sizes κ := ⟨.empty sizes, fun _ => ⟨.new, none⟩⟩

def setThread (s : OlcSystem sizes κ) (t : Nat) (thread : OlcThread sizes κ) : OlcSystem sizes κ :=
  { s with threads := Function.update s.threads t thread }

theorem setThread_self {t : Nat} (s : OlcSystem sizes κ) (thread : OlcThread sizes κ) :
    (s.setThread t thread).threads t = thread :=
  Function.update_self ..

theorem setThread_of_ne {t u : Nat} (s : OlcSystem sizes κ) (thread : OlcThread sizes κ)
    (hne : u ≠ t) : (s.setThread t thread).threads u = s.threads u :=
  Function.update_of_ne hne ..

/-- A step of thread `t`. -/
inductive Moves [StoredKey κ] (t : Nat) (s : OlcSystem sizes κ) : OlcSystem sizes κ → Prop where
  /-- An operation of a thread that is in none; a scan begins with a new iterator. -/
  | start (op : OlcDb.Operation κ) (fuel : Nat) {it : OlcIterator} :
    (s.threads t).running = none → it = .new ∨ it = (s.threads t).iterator →
      Moves t s (s.setThread t ⟨it, some (op, op.attempt t fuel it)⟩)
  /-- The next action of an attempt. -/
  | act {op : OlcDb.Operation κ} {β : Type} {f : Choice → OlcDb sizes → Option (β × OlcDb sizes)}
      {k : β → OlcM sizes (OlcIterator × OlcDb.Progress (OlcDb.Operation κ))} {c : Choice} {b : β}
      {db : OlcDb sizes} :
    (s.threads t).running = some (op, .atomic f k) → f c s.db = some (b, db) →
      Moves t s { (s.setThread t ⟨(s.threads t).iterator, some (op, k b)⟩) with db }
  /-- An attempt that must restart: the operation tries again. -/
  | retry {op op' : OlcDb.Operation κ} {it : OlcIterator} (fuel : Nat) :
    (s.threads t).running = some (op, .ret (it, .again op')) →
      Moves t s (s.setThread t ⟨it, some (op', op'.attempt t fuel it)⟩)
  /-- The operation returns. -/
  | finish {op : OlcDb.Operation κ} {it : OlcIterator} {response : OlcDb.Response} :
    (s.threads t).running = some (op, .ret (it, .done response)) →
      Moves t s (s.setThread t ⟨it, none⟩)
  /-- The operation is left by an exception. -/
  | unwind {op : OlcDb.Operation κ} {fault : Fault} :
    (s.threads t).running = some (op, .throw fault) → fault.isException →
      Moves t s (s.setThread t ⟨(s.threads t).iterator, none⟩)

/-- What a step shows: whose it is, and the lock words before and after it. -/
structure Event where
  thread : Nat
  before : Site → LockWord
  after : Site → LockWord

def Step [StoredKey κ] (s : OlcSystem sizes κ) (e : Event) (s' : OlcSystem sizes κ) : Prop :=
  Moves e.thread s s' ∧ e.before = s.db.lock ∧ e.after = s'.db.lock

/-! Schedules, which tell whose turn it is. -/

/-- What a thread does when it is its turn: it begins an operation, or goes on with the one that it
    is in. -/
inductive Turn (κ : Type) where
  | start (op : OlcDb.Operation κ)
  | go (c : Choice)

/-- A thread begins an operation and has this many turns more. -/
def Turn.call (t : Nat) (op : OlcDb.Operation κ) (n : Nat) : List (Nat × Turn κ) :=
  (t, .start op) :: List.replicate n (t, .go {})

variable [StoredKey κ] {s s' : OlcSystem sizes κ} {t u : Nat}

/-- The state after a turn of a thread; `none` if it waits or has failed. -/
def turn (s : OlcSystem sizes κ) (t : Nat) : Turn κ → Option (OlcSystem sizes κ)
  | .start op =>
    match (s.threads t).running with
    -- A new iterator, as a scan makes one.
    | none => some (s.setThread t ⟨.new, some (op, op.attempt t 0 .new)⟩)
    | some _ => none
  | .go c =>
    match (s.threads t).running with
    | none => none
    -- A spinning thread has no turn.
    | some (op, .atomic f k) => (f c s.db).map fun r =>
      { (s.setThread t ⟨(s.threads t).iterator, some (op, k r.1)⟩) with db := r.2 }
    | some (_, .ret (it, .again op)) => some (s.setThread t ⟨it, some (op, op.attempt t 0 it)⟩)
    | some (_, .ret (it, .done _)) => some (s.setThread t ⟨it, none⟩)
    | some (_, .throw e) =>
      -- Any other fault is an error of the program.
      if e.isException then some (s.setThread t ⟨(s.threads t).iterator, none⟩) else none

/-- The state at the end of a schedule. -/
def play : List (Nat × Turn κ) → OlcSystem sizes κ → Option (OlcSystem sizes κ)
  | [], s => some s
  | (t, turn) :: rest, s => (s.turn t turn).bind (play rest)

theorem Moves.of_turn {turn : Turn κ} (h : s.turn t turn = some s') : Moves t s s' := by
  cases turn with
  | start op =>
    rw [OlcSystem.turn] at h
    split at h
    · rename_i hidle
      cases h
      exact .start op 0 hidle (.inl rfl)
    · cases h
  | go c =>
    rw [OlcSystem.turn] at h
    split at h
    · cases h
    · rename_i op β f k hrun
      obtain ⟨⟨b, db⟩, hf, rfl⟩ := Option.map_eq_some_iff.mp h
      exact .act hrun hf
    · rename_i op it op' hrun
      cases h
      exact .retry 0 hrun
    · rename_i op it response hrun
      cases h
      exact .finish hrun
    · rename_i op e hrun
      split at h
      · rename_i hexc
        cases h
        exact .unwind hrun hexc
      · cases h

/-- A schedule is a run of the system. -/
theorem exists_run_of_play {turns : List (Nat × Turn κ)} (h : play turns s = some s') :
    ∃ es, Run Step s es s' := by
  induction turns generalizing s with
  | nil =>
    cases h
    exact ⟨[], .nil _⟩
  | cons e rest ih =>
    obtain ⟨s₁, hturn, hrest⟩ := Option.bind_eq_some_iff.mp h
    obtain ⟨es, hrun⟩ := ih hrest
    have hstep : Step s ⟨e.1, s.db.lock, s₁.db.lock⟩ s₁ := ⟨.of_turn hturn, rfl, rfl⟩
    exact ⟨_, .cons hstep hrun⟩

theorem Moves.threads (h : Moves t s s') (hu : u ≠ t) : s'.threads u = s.threads u := by
  cases h with
  | start => exact setThread_of_ne s _ hu
  | act => exact setThread_of_ne s _ hu
  | retry => exact setThread_of_ne s _ hu
  | finish => exact setThread_of_ne s _ hu
  | unwind => exact setThread_of_ne s _ hu

/-- A thread that has no turn stays where it is. -/
theorem play_threads {turns : List (Nat × Turn κ)} (h : play turns s = some s')
    (hu : ∀ e ∈ turns, u ≠ e.1) : s'.threads u = s.threads u := by
  induction turns generalizing s with
  | nil =>
    cases h
    rfl
  | cons e rest ih =>
    obtain ⟨s₁, hturn, hrest⟩ := Option.bind_eq_some_iff.mp h
    rw [ih hrest fun x hx => hu x (List.mem_cons_of_mem e hx)]
    exact (Moves.of_turn hturn).threads (hu e List.mem_cons_self)

/-- The first threads have had all the turns, and are in no operation. -/
theorem idle_of_play {turns : List (Nat × Turn κ)} {n : Nat} (h : play turns s = some s')
    (hstart : ∀ t, (s.threads t).running = none) (hturns : ∀ e ∈ turns, e.1 < n)
    (hidle : ∀ t < n, (s'.threads t).running.isNone) (t : Nat) : (s'.threads t).running = none := by
  by_cases ht : t < n
  · exact Option.isNone_iff_eq_none.mp (hidle t ht)
  · rw [play_threads h fun e he heq => ht (Nat.lt_of_le_of_lt (Nat.le_of_eq heq) (hturns e he))]
    exact hstart t

end OlcSystem

end Unodb
