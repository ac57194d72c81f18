import Unodb.Olc.Lookup
import Unodb.Olc.Stale

/-!
# Scans amid complete updates

Between two calls of its iterator a scan of an `olc_db<std::uint64_t>` leaves the tree to other threads,
which may make complete updates there.  The scan keeps its promise for the keys that are in the tree
all the time, as long as no seek of it comes to a dead end.
-/

namespace Unodb

namespace OlcDb

/-- `scan`, `scan_from` and `scan_range`. -/
inductive Scan where
  | scan (fwd : Bool)
  | scanFrom (fromKey : BitVec 64) (fwd : Bool)
  | scanRange (fromKey toKey : BitVec 64)

namespace Scan

/-- The direction. -/
def fwd : Scan → Bool
  | .scan fwd | .scanFrom _ fwd => fwd
  | .scanRange fromKey toKey => decide (Db.cmpU64 (U64Key.make fromKey) (U64Key.make toKey) < 0)

/-- The call that positions the iterator; a `scan_range` of equal keys returns at once. -/
def first : Scan → Option (IterOperation U64Key)
  | .scan fwd => some (.outermost fwd)
  | .scanFrom fromKey fwd => some (.seek (U64Key.make fromKey) fwd)
  | .scanRange fromKey toKey =>
    let ret := Db.cmpU64 (U64Key.make fromKey) (U64Key.make toKey)
    if ret = 0 then none else some (.seek (U64Key.make fromKey) (decide (ret < 0)))

/-- The condition of the loop on the key of the leaf. -/
def inside : Scan → List UInt8 → Bool
  | .scan _, _ | .scanFrom _ _, _ => true
  | .scanRange fromKey toKey, key =>
    Db.within (fwd (.scanRange fromKey toKey)) (Db.view U64Key.make toKey) key

/-- The keys that are to be visited. -/
def range : Scan → Set (BitVec 64)
  | .scan _ => Set.univ
  | .scanFrom fromKey fwd => {k | k = fromKey ∨ Toward fwd fromKey k}
  | .scanRange fromKey toKey => {k | fromKey ≤ k ∧ k < toKey ∨ toKey < k ∧ k ≤ fromKey}

/-- What comes next: the first call of the iterator, the condition of the loop, the function of the
    caller, or the next move. -/
inductive Phase where
  | start | test | visit | move
  | done (halted : Bool)
deriving DecidableEq

/-- The variables of a scan, with the entries visited so far. -/
structure Vars (σ : Type) where
  it : OlcIterator
  state : σ
  visited : List Entry
  phase : Phase

/-- At its start. -/
def Vars.new {σ : Type} (state : σ) : Vars σ := ⟨.new, state, [], .start⟩

variable {σ : Type}

/-- The next step. -/
def step (scan : Scan) (fn : Visitor σ) (fuel rounds : Nat) (x : Vars σ) : OlcM sizes (Vars σ) :=
  match x.phase, x.it.stack with
  | .start, _ =>
    match scan.first with
    | none => return { x with phase := .done false }
    | some op => do
      let (it, _) ← op.run fuel rounds x.it
      return { x with it, phase := .test }
  | .test, [] => return { x with phase := .done false }
  | .test, e :: _ => do
    let key ← readKey e.node
    return { x with phase := if scan.inside key then .visit else .done false }
  -- `get_key` and `get_val` assert that the iterator is valid.
  | .visit, [] => Prog.throw .assertion
  | .visit, e :: _ => do
    let entry ← readLeaf e.node
    let (halt, state) := fn x.state entry
    return { x with
      state, visited := x.visited ++ [entry], phase := if halt then .done true else .move }
  | .move, _ => do
    let (it, _) ← (IterOperation.advance scan.fwd : IterOperation U64Key).run fuel rounds x.it
    return { x with it, phase := .test }
  | .done _, _ => return x

end Scan

/-- The tree and a scan of it. -/
structure Scanning (sizes : Sizes) (σ : Type) where
  db : OlcDb sizes
  vars : Scan.Vars σ

namespace Scanning

variable {σ : Type}

/-- The iterator is at a leaf with this key and value. -/
def Shows (w : Scanning sizes σ) (entry : Entry) : Prop :=
  ∃ e stack, w.vars.it.stack = e :: stack ∧ w.db.mem.deref e.node = some (.leaf entry.1 entry.2)

/-- The next step is a call of the iterator. -/
def Calls (w : Scanning sizes σ) : Prop := w.vars.phase = .start ∨ w.vars.phase = .move

end Scanning

/-- Runs of a scan from a state of the tree: the states so far, the last one first.  A step is taken
    where `may` allows it, and within it a call of the iterator is not disturbed, so that two attempts
    are enough.  Between two steps another thread may make an update alone. -/
inductive Scans {σ : Type} (may : Scanning sizes σ → Prop) (scan : Scan) (fn : Visitor σ) (state : σ)
    (o₀ : OlcDb sizes) : List (Scanning sizes σ) → Prop where
  | start : Scans may scan fn state o₀ [⟨o₀, .new state⟩]
  | step {w ws rounds choices vars db} : Scans may scan fn state o₀ (w :: ws) → may w →
      (scan.step fn w.db.next (rounds + 2) w.vars).exec choices w.db = some (.ok vars, db) →
      Scans may scan fn state o₀ (⟨db, vars⟩ :: w :: ws)
  | update {w ws c r db} : Scans may scan fn state o₀ (w :: ws) → IsUpdate c →
      Performs U64Key.make w.db (c, r) db → Scans may scan fn state o₀ (⟨db, w.vars⟩ :: w :: ws)

section Law

variable {σ : Type}

/-- The keys in the tree. -/
def u64Keys (o : OlcDb sizes) : Set (BitVec 64) := {k | ∃ v, o.Binds (Db.view U64Key.make k) v}

/-- The key is in the tree in all of these states. -/
def Kept (ws : List (Scanning sizes σ)) (k : BitVec 64) : Prop := ∀ w ∈ ws, k ∈ w.db.u64Keys

/-- After these entries had been visited, a call of the iterator came to this one, and the tree stored
    it then. -/
def Met (ws : List (Scanning sizes σ)) (before : List Entry) (entry : Entry) : Prop :=
  ∃ w w' : Scanning sizes σ, [w', w] <:+: ws ∧ w.Calls ∧ w'.vars.phase = .test ∧
    w'.vars.visited = before ∧ w'.Shows entry ∧ w'.db.Binds entry.1 entry.2

/-- What is promised of a scan in the first of these states, the present one. -/
structure ScanLaw (scan : Scan) (w : Scanning sizes σ) (ws : List (Scanning sizes σ)) : Prop where
  /-- The keys visited are those of this list: strictly ordered, and inside the range. -/
  ordered : ∃ keys : List (BitVec 64), w.vars.visited.map Prod.fst = keys.map (Db.view U64Key.make) ∧
    keys.Pairwise (Toward scan.fwd) ∧ ∀ k ∈ keys, k ∈ scan.range
  met : ∀ before entry after, w.vars.visited = before ++ entry :: after → Met (w :: ws) before entry
  /-- Unless the function has halted the scan. -/
  complete : w.vars.phase = .done false → ∀ k ∈ scan.range, Kept (w :: ws) k →
    (w.vars.visited.map Prod.fst).count (Db.view U64Key.make k) = 1

/-- The next step does not search for a key where the search ends at a dead end of the stored keys:
    not for the key that the scan starts from, and not for the key of the leaf that the iterator is to
    leave, which is no dead end while it is stored. -/
def Scan.Unhindered (scan : Scan) (w : Scanning sizes σ) : Prop :=
  (w.vars.phase = .start → ∀ k fwd, scan.first = some (.seek k fwd) →
    ¬ DeadEnd w.db.counted.Keys (ArtKey.getKeyView k) fwd) ∧
  (w.vars.phase = .move → ∀ entry, w.Shows entry → ¬ DeadEnd w.db.counted.Keys entry.1 scan.fwd)

end Law

/-! ## 1. The loop and its range -/

/-- Without updates in between, the steps are the loop of a scan. -/
theorem scanLoop_eq_steps {σ : Type} (scan : Scan) (fn : Visitor σ) (fuel rounds limit : Nat)
    (it : OlcIterator) (state : σ) :
    (scanLoop U64Key fuel rounds scan.fwd scan.inside fn (limit + 1) it state :
        OlcM sizes (List Entry)) =
      scan.step fn fuel rounds ⟨it, state, [], .test⟩ >>= fun x =>
      scan.step fn fuel rounds x >>= fun x =>
      scan.step fn fuel rounds x >>= fun x =>
      if x.phase = .test then
        scanLoop U64Key fuel rounds scan.fwd scan.inside fn limit x.it x.state >>= fun entries =>
          Prog.ret (x.visited ++ entries)
      else Prog.ret x.visited := by
  obtain ⟨stack, keybuf⟩ := it
  cases stack with
  | nil => rfl
  | cons e stack =>
    rw [scanLoop]
    show readKey e.node >>= _ = (readKey e.node >>= _) >>= _
    rw [Prog.bind_assoc]
    refine congrArg (readKey e.node >>= ·) (funext fun key => ?_)
    by_cases hinside : scan.inside key
    · rw [if_pos hinside, if_pos hinside]
      show readLeaf e.node >>= _ = (readLeaf e.node >>= _) >>= _
      rw [Prog.bind_assoc]
      refine congrArg (readLeaf e.node >>= ·) (funext fun entry => ?_)
      rcases fn state entry with ⟨halt, state'⟩
      cases halt with
      | true => rfl
      | false =>
        show IterOperation.run _ _ _ _ >>= _ = (IterOperation.run _ _ _ _ >>= _) >>= _
        rw [Prog.bind_assoc]
        rfl
    · rw [if_neg hinside, if_neg hinside]
      rfl

/-- A scan as one program. -/
def Scan.program {σ : Type} (fuel rounds limit : Nat) (fn : Visitor σ) (state : σ) :
    Scan → OlcM sizes (List Entry)
  | .scan fwd => OlcDb.scan fuel rounds limit fn state U64Key fwd
  | .scanFrom fromKey fwd => OlcDb.scanFrom fuel rounds limit fn state (U64Key.make fromKey) fwd
  | .scanRange fromKey toKey => OlcDb.scanRange fuel rounds limit fn state (U64Key.make fromKey)
      (U64Key.make toKey) (Db.cmpU64 (U64Key.make fromKey) (U64Key.make toKey))

/-- Without updates in between, the first step and the loop are the whole scan. -/
theorem Scan.program_eq_steps {σ : Type} (scan : Scan) (fn : Visitor σ) (fuel rounds limit : Nat)
    (state : σ) :
    (scan.program fuel rounds limit fn state : OlcM sizes (List Entry)) =
      scan.step fn fuel rounds (.new state) >>= fun x =>
      if x.phase = .test then scanLoop U64Key fuel rounds scan.fwd scan.inside fn limit x.it x.state
      else Prog.ret [] := by
  have hcall : ∀ op, scan.first = some op →
      (scan.step fn fuel rounds (.new state) : OlcM sizes (Vars σ)) =
        op.run fuel rounds .new >>= fun r => Prog.ret ⟨r.1, state, [], .test⟩ := by
    intro op hop
    show (match scan.first with | none => _ | some op => _) = _
    rw [hop]
    rfl
  cases scan with
  | scan fwd =>
    rw [hcall _ rfl, Prog.bind_assoc]
    rfl
  | scanFrom fromKey fwd =>
    rw [hcall _ rfl, Prog.bind_assoc]
    rfl
  | scanRange fromKey toKey =>
    rw [program, OlcDb.scanRange]
    by_cases hzero : Db.cmpU64 (U64Key.make fromKey) (U64Key.make toKey) = 0
    · have hnone : (Scan.scanRange fromKey toKey).first = none := if_pos hzero
      rw [if_pos hzero]
      show _ = (match (Scan.scanRange fromKey toKey).first with | none => _ | some op => _) >>= _
      rw [hnone]
      rfl
    · rw [if_neg hzero, hcall _ (if_neg hzero), Prog.bind_assoc]
      rfl

namespace Scan

variable {scan : Scan} {a b k : BitVec 64}

/-- The keys at or beyond the one that the scan starts from. -/
def reach : Scan → Set (BitVec 64)
  | .scan _ => Set.univ
  | .scanFrom fromKey fwd => {k | k = fromKey ∨ Toward fwd fromKey k}
  | .scanRange fromKey toKey => {k | k = fromKey ∨ Toward (fwd (.scanRange fromKey toKey)) fromKey k}

theorem fwd_scanRange (a b : BitVec 64) : (Scan.scanRange a b).fwd = decide (a < b) := by
  have horder : Toward true (Db.view U64Key.make a) (Db.view U64Key.make b) ↔ Toward true a b :=
    Db.view_u64_toward_iff a b
  rw [fwd, Db.cmpU64_eq_compare]
  exact decide_eq_decide.mpr ((compare_neg_iff _ _).trans horder)

/-- The range is what is reached and meets the condition of the loop. -/
theorem mem_range_iff : k ∈ scan.range ↔ k ∈ scan.reach ∧ scan.inside (Db.view U64Key.make k) := by
  cases scan with
  | scan fwd => simp [range, reach, inside]
  | scanFrom fromKey fwd => simp [range, reach, inside]
  | scanRange a b =>
    have hinside : (scanRange a b).inside (Db.view U64Key.make k) ↔ Toward (scanRange a b).fwd k b :=
      (Db.within_iff _ _).trans (Db.view_u64_toward_iff _ _)
    rw [hinside, reach, fwd_scanRange]
    by_cases hlt : a < b
    · rw [decide_eq_true hlt]
      show (a ≤ k ∧ k < b ∨ b < k ∧ k ≤ a) ↔ (k = a ∨ a < k) ∧ k < b
      bv_omega
    · rw [decide_eq_false hlt]
      show (a ≤ k ∧ k < b ∨ b < k ∧ k ≤ a) ↔ (k = a ∨ k < a) ∧ b < k
      bv_omega

/-- The condition of the loop holds up to a place of the scan. -/
theorem inside_of_toward (hab : Toward scan.fwd a b) (hb : scan.inside (Db.view U64Key.make b)) :
    scan.inside (Db.view U64Key.make a) := by
  cases scan with
  | scan fwd => rfl
  | scanFrom fromKey fwd => rfl
  | scanRange fromKey toKey =>
    have hbelow := (Db.view_u64_toward_iff _ _).mp ((Db.within_iff _ _).mp hb)
    exact (Db.within_iff _ _).mpr ((Db.view_u64_toward_iff _ _).mpr (toward_trans hab hbelow))

theorem reach_of_toward (ha : a ∈ scan.reach) (hab : Toward scan.fwd a b) : b ∈ scan.reach := by
  have hfrom : ∀ {k}, a = k ∨ Toward scan.fwd k a → b = k ∨ Toward scan.fwd k b := by
    rintro k (rfl | hka)
    · exact .inr hab
    · exact .inr (toward_trans hka hab)
  cases scan with
  | scan fwd => trivial
  | scanFrom fromKey fwd => exact hfrom ha
  | scanRange fromKey toKey => exact hfrom ha

/-- How a scan starts. -/
theorem first_cases (scan : Scan) : scan.first = none ∧ scan.range = ∅ ∨
    scan.first = some (.outermost scan.fwd) ∧ scan.reach = Set.univ ∨
    ∃ k, scan.first = some (.seek (U64Key.make k) scan.fwd) ∧
      scan.reach = {x | x = k ∨ Toward scan.fwd k x} := by
  cases scan with
  | scan fwd => exact .inr (.inl ⟨rfl, rfl⟩)
  | scanFrom fromKey fwd => exact .inr (.inr ⟨fromKey, rfl, rfl⟩)
  | scanRange a b =>
    by_cases hzero : Db.cmpU64 (U64Key.make a) (U64Key.make b) = 0
    · have hview : Db.view U64Key.make a = Db.view U64Key.make b :=
        (compare_eq_zero_iff _ _).mp ((Db.cmpU64_eq_compare a b).symm.trans hzero)
      obtain rfl : a = b := Db.view_u64_injective hview
      refine .inl ⟨if_pos hzero, Set.eq_empty_iff_forall_notMem.mpr fun k hk => ?_⟩
      have hk : a ≤ k ∧ k < a ∨ a < k ∧ k ≤ a := hk
      bv_omega
    · exact .inr (.inr ⟨a, if_neg hzero, rfl⟩)

end Scan

/-! ## 2. Calls of the iterator -/

section Calls

variable {o : OlcDb sizes} {it : OlcIterator} {k : BitVec 64} {v : List UInt8}

theorem Sound.binds_iff (h : o.Sound) {k v : List UInt8} : o.Binds k v ↔ o.counted.Binds k v := by
  obtain ⟨s, path, lost, hm, hinv⟩ := h
  exact hm.binds_iff hinv.tree

theorem Sound.represents (h : o.Sound) :
    ∃ (s : Db sizes) (path : _) (lost : _) (m : RefMap (BitVec 64)), o.Mirrors s ∧
      s.Inv Db.u64Views path lost ∧ Db.Represents U64Key.make s m ∧ Iterator.stored m = o.u64Keys := by
  obtain ⟨s, path, lost, hm, hinv⟩ := h
  obtain ⟨m, hrep⟩ := hinv.represents_u64
  refine ⟨s, path, lost, m, hm, hinv, hrep, Set.ext fun k => ?_⟩
  refine Option.isSome_iff_exists.trans (exists_congr fun v => ?_)
  rw [hm.binds_iff hinv.tree, hm.tree, hrep.binds_iff]

theorem Sound.outermost_points (h : o.Sound) (fwd : Bool) (rounds : Nat) (it : OlcIterator) :
    Comes o (fun r => ∃ c, o.Points o.counted r.1 c ∧ Radix.Foremost (Toward fwd) o.u64Keys c)
      ((IterOperation.outermost fwd : IterOperation U64Key).run o.next (rounds + 2) it) := by
  obtain ⟨s, path, lost, m, hm, hinv, hrep, hstored⟩ := h.represents
  rw [hm.tree, hm.next, ← hstored]
  exact OlcDb.outermost_points hinv hrep hm.quiet fwd (rounds + 1) it

theorem Sound.seek_points (h : o.Sound) {fwd : Bool}
    (hdead : ¬ DeadEnd o.counted.Keys (Db.view U64Key.make k) fwd) (rounds : Nat) (it : OlcIterator) :
    Comes o (fun r => ∃ c, o.Points o.counted r.1 c ∧
        Radix.Foremost (Toward fwd) {x | x ∈ o.u64Keys ∧ (x = k ∨ Toward fwd k x)} c)
      ((IterOperation.seek (U64Key.make k) fwd).run o.next (rounds + 2) it) := by
  obtain ⟨s, path, lost, m, hm, hinv, hrep, hstored⟩ := h.represents
  rw [hm.tree] at hdead
  rw [hm.tree, hm.next, ← hstored]
  exact OlcDb.seek_points hinv hrep hm.quiet fwd hdead (rounds + 1) it

theorem Sound.advance_points (h : o.Sound) {fwd : Bool}
    (hlingers : o.Lingers o.counted it (Db.view U64Key.make k) v)
    (hdead : ¬ DeadEnd o.counted.Keys (Db.view U64Key.make k) fwd) (rounds : Nat) :
    Comes o (fun r => ∃ c, o.Points o.counted r.1 c ∧
        Radix.Foremost (Toward fwd) {x | x ∈ o.u64Keys ∧ Toward fwd k x} c)
      ((IterOperation.advance fwd : IterOperation U64Key).run o.next (rounds + 2) it) := by
  obtain ⟨s, path, lost, m, hm, hinv, hrep, hstored⟩ := h.represents
  rw [hm.tree] at hdead hlingers
  rw [hm.tree, hm.next, ← hstored]
  exact OlcDb.advance_points hinv hrep hm.quiet fwd hlingers hdead rounds

end Calls

/-! ## 3. What every step keeps -/

section Invariant

variable {σ : Type} {scan : Scan} {fn : Visitor σ} {state : σ} {o₀ db : OlcDb sizes}
  {w : Scanning sizes σ} {ws ws' : List (Scanning sizes σ)} {keys : List (BitVec 64)}
  {ahead : Set (BitVec 64)} {k : BitVec 64} {v : List UInt8}

/-- Of the keys in the range that were always in the tree, all but these lie ahead. -/
def Covers (scan : Scan) (ws : List (Scanning sizes σ)) (keys : List (BitVec 64))
    (ahead : Set (BitVec 64)) : Prop :=
  ∀ k ∈ scan.range, Kept ws k → k ∈ keys ∨ k ∈ ahead

/-- The iterator is at a leaf that the scan has come to last, beyond the keys visited. -/
structure Before (scan : Scan) (w : Scanning sizes σ) (ws : List (Scanning sizes σ))
    (keys : List (BitVec 64)) (k : BitVec 64) (v : List UInt8) : Prop where
  lingers : w.db.Lingers w.db.counted w.vars.it (Db.view U64Key.make k) v
  reached : k ∈ scan.reach
  beyond : ∀ x ∈ keys, Toward scan.fwd x k
  covers : Covers scan ws keys {x | x = k ∨ Toward scan.fwd k x}
  met : Met ws w.vars.visited (Db.view U64Key.make k, v)

/-- The iterator is at a leaf whose key has been visited last. -/
structure After (scan : Scan) (w : Scanning sizes σ) (ws : List (Scanning sizes σ))
    (keys : List (BitVec 64)) (k : BitVec 64) (v : List UInt8) : Prop where
  lingers : w.db.Lingers w.db.counted w.vars.it (Db.view U64Key.make k) v
  reached : k ∈ scan.reach
  last : ∀ x ∈ keys, x = k ∨ Toward scan.fwd x k
  covers : Covers scan ws keys {x | Toward scan.fwd k x}

/-- How far the scan has come. -/
def Place (scan : Scan) (w : Scanning sizes σ) (ws : List (Scanning sizes σ))
    (keys : List (BitVec 64)) : Scan.Phase → Prop
  | .start => keys = []
  | .test => w.vars.it.stack = [] ∧ Covers scan ws keys ∅ ∨ ∃ k v, Before scan w ws keys k v
  | .visit => ∃ k v, Before scan w ws keys k v ∧ scan.inside (Db.view U64Key.make k)
  | .move => ∃ k v, After scan w ws keys k v
  | .done halted => halted = false → Covers scan ws keys ∅

/-- What is known of a scan that has visited these keys. -/
structure ScanInv (scan : Scan) (w : Scanning sizes σ) (ws : List (Scanning sizes σ))
    (keys : List (BitVec 64)) : Prop where
  sound : w.db.Sound
  visited : w.vars.visited.map Prod.fst = keys.map (Db.view U64Key.make)
  sorted : keys.Pairwise (Toward scan.fwd)
  inside : ∀ k ∈ keys, k ∈ scan.range
  met : ∀ before entry after, w.vars.visited = before ++ entry :: after → Met ws before entry
  place : Place scan w ws keys w.vars.phase

theorem Kept.of_cons (h : Kept (w :: ws) k) : Kept ws k :=
  fun w' hw' => h w' (List.mem_cons_of_mem w hw')

theorem Met.cons {before : List Entry} {entry : Entry} (h : Met ws before entry) :
    Met (w :: ws) before entry := by
  obtain ⟨w₁, w₂, hinfix, hmet⟩ := h
  exact ⟨w₁, w₂, List.infix_cons hinfix, hmet⟩

theorem Covers.cons (h : Covers scan ws keys ahead) : Covers scan (w :: ws) keys ahead :=
  fun k hk hkept => h k hk hkept.of_cons

theorem ScanInv.place_of {phase : Scan.Phase} (h : ScanInv scan w ws keys)
    (hphase : w.vars.phase = phase) : Place scan w ws keys phase := hphase ▸ h.place

/-- Another state in which nothing more has been visited. -/
theorem ScanInv.later {w' : Scanning sizes σ} (h : ScanInv scan w ws keys) (hsound : w'.db.Sound)
    (hvisited : w'.vars.visited = w.vars.visited)
    (hplace : Place scan w' (w' :: ws) keys w'.vars.phase) : ScanInv scan w' (w' :: ws) keys where
  sound := hsound
  visited := hvisited ▸ h.visited
  sorted := h.sorted
  inside := h.inside
  met := fun before entry after heq => (h.met before entry after (hvisited ▸ heq)).cons
  place := hplace

/-- An update leaves the scan where it is. -/
theorem Place.update {phase : Scan.Phase} (h : Place scan w ws keys phase)
    (hpasses : ∀ {k v}, w.db.Lingers w.db.counted w.vars.it k v → db.Lingers db.counted w.vars.it k v) :
    Place scan ⟨db, w.vars⟩ (⟨db, w.vars⟩ :: ws) keys phase := by
  have hbefore : ∀ {k v}, Before scan w ws keys k v →
      Before scan ⟨db, w.vars⟩ (⟨db, w.vars⟩ :: ws) keys k v :=
    fun h => ⟨hpasses h.lingers, h.reached, h.beyond, h.covers.cons, h.met.cons⟩
  cases phase with
  | start => exact h
  | test => exact h.imp (fun hend => ⟨hend.1, hend.2.cons⟩) fun ⟨k, v, hat⟩ => ⟨k, v, hbefore hat⟩
  | visit =>
    obtain ⟨k, v, hat, hinside⟩ := h
    exact ⟨k, v, hbefore hat, hinside⟩
  | move =>
    obtain ⟨k, v, hat⟩ := h
    exact ⟨k, v, hpasses hat.lingers, hat.reached, hat.last, hat.covers.cons⟩
  | done halted => exact fun hhalted => (h hhalted).cons

theorem ScanInv.update {c : Call (BitVec 64)} {r : Except Fault Output} (h : ScanInv scan w ws keys)
    (hupdate : IsUpdate c) (hperforms : Performs U64Key.make w.db (c, r) db) :
    ScanInv scan ⟨db, w.vars⟩ (⟨db, w.vars⟩ :: ws) keys := by
  obtain ⟨s, path, lost, hm, hinv⟩ := h.sound
  obtain ⟨s', path', hm', hinv', -, hpasses⟩ := hperforms.passes hm hinv Db.u64Views_prefixFree
    (Db.keyIn_u64 Db.view_mem_u64Views c) hupdate (hperforms.completes_u64 hm hinv)
  refine h.later ⟨s', path', lost, hm', hinv'⟩ rfl (h.place.update fun hlingers => ?_)
  rw [hm.tree] at hlingers
  rw [hm'.tree]
  exact hlingers.passes hm hm' hinv'.tree hpasses

/-- Where a call of the iterator leads: to the first of the keys that lie ahead. -/
theorem ScanInv.called {it : OlcIterator} {c : Option (BitVec 64)} (h : ScanInv scan w (w :: ws) keys)
    (hcalls : w.Calls) (hpoints : w.db.Points w.db.counted it c)
    (hc : Radix.Foremost (Toward scan.fwd) ahead c) (hreached : ∀ x ∈ ahead, x ∈ scan.reach)
    (hbeyond : ∀ x ∈ keys, ∀ y ∈ ahead, Toward scan.fwd x y)
    (hcovers : Covers scan (w :: ws) keys ahead) :
    let w' : Scanning sizes σ := ⟨w.db, { w.vars with it, phase := .test }⟩
    ScanInv scan w' (w' :: w :: ws) keys := by
  intro w'
  refine h.later h.sound rfl ?_
  cases c with
  | none =>
    obtain rfl : ahead = ∅ := hc
    exact .inl ⟨hpoints, hcovers.cons⟩
  | some k =>
    obtain ⟨v, hbinds, hlingers⟩ := hpoints
    obtain ⟨hk, hfirst⟩ := hc
    obtain ⟨e, stack, hstack, hleaf, -⟩ := hlingers.at_leaf
    have hmet : Met (w' :: w :: ws) w'.vars.visited (Db.view U64Key.make k, v) :=
      ⟨w, w', List.infix_append [] [w', w] ws, hcalls, rfl, rfl, ⟨e, stack, hstack, hleaf⟩,
        h.sound.binds_iff.mpr hbinds⟩
    refine .inr ⟨k, v, hlingers, hreached k hk, fun x hx => hbeyond x hx k hk,
      fun x hx hkept => ?_, hmet⟩
    exact (hcovers.cons x hx hkept).imp_right (hfirst x)

/-- A call of the iterator and what follows it. -/
theorem ScanInv.calling {op : IterOperation U64Key} {rounds : Nat} (h : ScanInv scan w (w :: ws) keys)
    (hcalls : w.Calls)
    (hop : Comes w.db (fun r => ∃ c, w.db.Points w.db.counted r.1 c ∧
      Radix.Foremost (Toward scan.fwd) ahead c) (op.run w.db.next (rounds + 2) w.vars.it))
    (hreached : ∀ x ∈ ahead, x ∈ scan.reach) (hbeyond : ∀ x ∈ keys, ∀ y ∈ ahead, Toward scan.fwd x y)
    (hcovers : Covers scan (w :: ws) keys ahead) :
    Comes w.db (fun vars => ScanInv scan ⟨w.db, vars⟩ (⟨w.db, vars⟩ :: w :: ws) keys)
      (op.run w.db.next (rounds + 2) w.vars.it >>= fun r =>
        Prog.ret { w.vars with it := r.1, phase := .test }) := by
  refine hop.bind fun r hr => .ret ?_
  obtain ⟨c, hpoints, hc⟩ := hr
  exact h.called hcalls hpoints hc hreached hbeyond hcovers

theorem Kept.mem_u64Keys (h : Kept (w :: ws) k) : k ∈ w.db.u64Keys := h w List.mem_cons_self

theorem ScanInv.start (h : ScanInv scan w (w :: ws) keys) (hphase : w.vars.phase = .start)
    (hclear : scan.Unhindered w) (rounds : Nat) :
    Comes w.db (fun vars => ScanInv scan ⟨w.db, vars⟩ (⟨w.db, vars⟩ :: w :: ws) keys)
      (scan.step fn w.db.next (rounds + 2) w.vars) := by
  obtain rfl : keys = [] := h.place_of hphase
  have hcalls : w.Calls := .inl hphase
  rw [Scan.step.eq_def, hphase]
  rcases scan.first_cases with ⟨hfirst, hrange⟩ | ⟨hfirst, hreach⟩ | ⟨k, hfirst, hreach⟩
  · dsimp only
    rw [hfirst]
    refine .ret (h.later h.sound rfl fun _ k hk _ => ?_)
    rw [hrange] at hk
    cases hk
  · dsimp only
    rw [hfirst]
    refine h.calling hcalls (h.sound.outermost_points scan.fwd rounds _) ?_ nofun ?_
    · intro x _
      rw [hreach]
      trivial
    · exact fun x _ hkept => .inr hkept.mem_u64Keys
  · have hdead := hclear.1 hphase _ _ hfirst
    dsimp only
    rw [hfirst]
    refine h.calling hcalls (h.sound.seek_points hdead rounds _) ?_ nofun ?_
    · intro x hx
      rw [hreach]
      exact hx.2
    · intro x hx hkept
      have hxk := (Scan.mem_range_iff.mp hx).1
      rw [hreach] at hxk
      exact .inr ⟨hkept.mem_u64Keys, hxk⟩

theorem ScanInv.test (h : ScanInv scan w (w :: ws) keys) (hphase : w.vars.phase = .test)
    (fuel rounds : Nat) :
    Comes w.db (fun vars => ScanInv scan ⟨w.db, vars⟩ (⟨w.db, vars⟩ :: w :: ws) keys)
      (scan.step fn fuel rounds w.vars) := by
  rw [Scan.step.eq_def, hphase]
  rcases h.place_of hphase with ⟨hend, hcovers⟩ | ⟨k, v, hat⟩
  · rw [hend]
    exact .ret (h.later h.sound rfl fun _ => hcovers.cons)
  · obtain ⟨e, stack, hstack, hleaf, -⟩ := hat.lingers.at_leaf
    rw [hstack]
    refine .step (yields_readKey_mem hleaf) (.ret (h.later h.sound rfl ?_))
    show Place scan _ _ keys (if scan.inside (Db.view U64Key.make k) then .visit else .done false)
    by_cases hinside : scan.inside (Db.view U64Key.make k)
    · rw [if_pos hinside]
      exact ⟨k, v, ⟨hat.lingers, hat.reached, hat.beyond, hat.covers.cons, hat.met.cons⟩, hinside⟩
    · rw [if_neg hinside]
      -- Nothing of the range lies ahead of a key that is beyond it.
      refine fun _ x hx hkept => .inl ((hat.covers x hx hkept.of_cons).resolve_right ?_)
      have hxin := (Scan.mem_range_iff.mp hx).2
      rintro (rfl | hkx)
      · exact hinside hxin
      · exact hinside (Scan.inside_of_toward hkx hxin)

theorem ScanInv.visit (h : ScanInv scan w (w :: ws) keys) (hphase : w.vars.phase = .visit)
    (fuel rounds : Nat) :
    Comes w.db (fun vars => ∃ keys, ScanInv scan ⟨w.db, vars⟩ (⟨w.db, vars⟩ :: w :: ws) keys)
      (scan.step fn fuel rounds w.vars) := by
  obtain ⟨k, v, hat, hinside⟩ := h.place_of hphase
  obtain ⟨e, stack, hstack, hleaf, -⟩ := hat.lingers.at_leaf
  rw [Scan.step.eq_def, hphase, hstack]
  refine .step (yields_readLeaf_mem hleaf) ?_
  rcases fn w.vars.state (Db.view U64Key.make k, v) with ⟨halt, state⟩
  refine .ret ⟨keys ++ [k], h.sound, ?_, ?_, ?_, ?_, ?_⟩
  · rw [List.map_append, List.map_append, h.visited]
    rfl
  · exact List.pairwise_append.mpr ⟨h.sorted, List.pairwise_singleton _ _, fun x hx y hy =>
      List.mem_singleton.mp hy ▸ hat.beyond x hx⟩
  · intro x hx
    rcases List.mem_append.mp hx with hx | hx
    · exact h.inside x hx
    · exact List.mem_singleton.mp hx ▸ Scan.mem_range_iff.mpr ⟨hat.reached, hinside⟩
  · intro before entry after heq
    have heq : w.vars.visited ++ [(Db.view U64Key.make k, v)] = before ++ entry :: after := heq
    rcases List.eq_nil_or_concat after with rfl | ⟨after, x, rfl⟩
    · obtain ⟨rfl, hentry⟩ := List.append_inj' heq rfl
      obtain rfl : _ = entry := (List.cons.inj hentry).1
      exact hat.met.cons
    · have hsplit : before ++ entry :: after.concat x = (before ++ entry :: after) ++ [x] := by simp
      exact (h.met before entry after (List.append_inj' (heq.trans hsplit) rfl).1).cons
  · cases halt with
    | true => exact nofun
    | false =>
      refine ⟨k, v, hat.lingers, hat.reached, fun x hx => ?_, fun x hx hkept => ?_⟩
      · rcases List.mem_append.mp hx with hx | hx
        · exact .inr (hat.beyond x hx)
        · exact .inl (List.mem_singleton.mp hx)
      · rcases hat.covers x hx hkept.of_cons with hmem | rfl | hkx
        · exact .inl (List.mem_append_left _ hmem)
        · exact .inl (List.mem_append_right _ List.mem_cons_self)
        · exact .inr hkx

theorem ScanInv.move (h : ScanInv scan w (w :: ws) keys) (hphase : w.vars.phase = .move)
    (hclear : scan.Unhindered w) (rounds : Nat) :
    Comes w.db (fun vars => ScanInv scan ⟨w.db, vars⟩ (⟨w.db, vars⟩ :: w :: ws) keys)
      (scan.step fn w.db.next (rounds + 2) w.vars) := by
  obtain ⟨k, v, hat⟩ := h.place_of hphase
  obtain ⟨e, stack, hstack, hleaf, -⟩ := hat.lingers.at_leaf
  have hdead := hclear.2 hphase (Db.view U64Key.make k, v) ⟨e, stack, hstack, hleaf⟩
  rw [Scan.step.eq_def, hphase]
  refine h.calling (.inr hphase) (h.sound.advance_points hat.lingers hdead rounds) ?_ ?_ ?_
  · exact fun x hx => Scan.reach_of_toward hat.reached hx.2
  · intro x hx y hy
    rcases hat.last x hx with rfl | hxk
    · exact hy.2
    · exact toward_trans hxk hy.2
  · exact fun x hx hkept => (hat.covers x hx hkept).imp_right fun hkx => ⟨hkept.mem_u64Keys, hkx⟩

/-- A step of the scan succeeds and keeps what is known. -/
theorem ScanInv.step (fn : Visitor σ) (h : ScanInv scan w (w :: ws) keys) (hclear : scan.Unhindered w)
    (rounds : Nat) :
    Comes w.db (fun vars => ∃ keys, ScanInv scan ⟨w.db, vars⟩ (⟨w.db, vars⟩ :: w :: ws) keys)
      (scan.step fn w.db.next (rounds + 2) w.vars) := by
  cases hphase : w.vars.phase with
  | start => exact (h.start hphase hclear rounds).mono fun _ hinv => ⟨keys, hinv⟩
  | test => exact (h.test hphase w.db.next (rounds + 2)).mono fun _ hinv => ⟨keys, hinv⟩
  | visit => exact h.visit hphase w.db.next (rounds + 2)
  | move => exact (h.move hphase hclear rounds).mono fun _ hinv => ⟨keys, hinv⟩
  | done halted =>
    have hplace := h.place_of hphase
    rw [Scan.step.eq_def, hphase]
    refine .ret ⟨keys, h.later h.sound rfl ?_⟩
    show Place scan w (w :: w :: ws) keys w.vars.phase
    rw [hphase]
    exact fun hhalted => (hplace hhalted).cons

theorem scanInv_start (h : o₀.Sound) :
    ScanInv scan ⟨o₀, .new state⟩ [(⟨o₀, .new state⟩ : Scanning sizes σ)] [] where
  sound := h
  visited := rfl
  sorted := .nil
  inside := nofun
  met := fun before entry after heq => by cases before <;> cases heq
  place := rfl

/-- What every step keeps, a run keeps. -/
theorem scanInv_of_scans (h : o₀.Sound) (hscans : Scans scan.Unhindered scan fn state o₀ ws) :
    ∃ w ws' keys, ws = w :: ws' ∧ ScanInv scan w ws keys := by
  induction hscans with
  | start => exact ⟨_, [], [], rfl, scanInv_start h⟩
  | @step w ws rounds choices vars db _ hclear hexec ih =>
    obtain ⟨_, _, keys, heq, hinv⟩ := ih
    obtain ⟨rfl, rfl⟩ := List.cons.inj heq
    obtain ⟨vars', hyields, keys', hinv'⟩ := hinv.step fn hclear rounds
    obtain ⟨hvars, rfl⟩ := Prod.mk.inj (Option.some_inj.mp ((hyields choices).symm.trans hexec))
    obtain rfl := Except.ok.inj hvars
    exact ⟨_, _, keys', rfl, hinv'⟩
  | update _ hupdate hperforms ih =>
    obtain ⟨_, _, keys, heq, hinv⟩ := ih
    obtain ⟨rfl, rfl⟩ := List.cons.inj heq
    exact ⟨_, _, keys, rfl, hinv.update hupdate hperforms⟩

theorem ScanInv.law (h : ScanInv scan w (w :: ws) keys) : ScanLaw scan w ws where
  ordered := ⟨keys, h.visited, h.sorted, h.inside⟩
  met := h.met
  complete := by
    intro hphase k hk hkept
    have hmem : k ∈ keys := (h.place_of hphase rfl k hk hkept).resolve_right (Set.notMem_empty k)
    have hnodup : keys.Nodup := by
      refine List.Pairwise.imp (fun {a b} hab => ?_) h.sorted
      rintro rfl
      exact Iterator.toward_asymm hab hab
    rw [h.visited]
    exact List.count_eq_one_of_mem (hnodup.map Db.view_u64_injective) (List.mem_map_of_mem hmem)

end Invariant

/-! ## 4. Runs -/

section Runs

variable {σ : Type} {scan : Scan} {fn : Visitor σ} {state : σ} {o₀ : OlcDb sizes}
  {w : Scanning sizes σ} {ws : List (Scanning sizes σ)}

/-- In every run of a scan in which no seek of it comes to a dead end, the scan keeps its promise in all
    states, and its next step succeeds. -/
theorem scanLaw_of_scans {events : List (Call (BitVec 64) × Except Fault Output)}
    (hrun : Run (Performs U64Key.make) (.empty sizes) events o₀)
    (hscans : Scans scan.Unhindered scan fn state o₀ (w :: ws)) :
    ScanLaw scan w ws ∧ (scan.Unhindered w → ∀ rounds, ∃ vars,
      (scan.step fn w.db.next (rounds + 2) w.vars).Yields w.db (.ok vars) w.db) := by
  have hempty : (empty sizes).Mirrors (Db.empty sizes) := empty_mirrors
  obtain ⟨-, s, path, lost, hm, hinv⟩ := run_u64_mirrors hempty (Db.Inv.empty fun _ => []) hrun
  obtain ⟨_, _, keys, heq, hscan⟩ := scanInv_of_scans ⟨s, path, lost, hm, hinv⟩ hscans
  obtain ⟨rfl, rfl⟩ := List.cons.inj heq
  refine ⟨hscan.law, fun hclear rounds => ?_⟩
  obtain ⟨vars, hyields, -⟩ := hscan.step fn hclear rounds
  exact ⟨vars, hyields⟩

/-- Steps of the scan, each where `check` allows it, and updates of another thread. -/
def Scan.play (scan : Scan) (fn : Visitor σ) (check : Scanning sizes σ → Bool) :
    List (Option (Call (BitVec 64))) → Scanning sizes σ → Option (Scanning sizes σ)
  | [], w => some w
  | none :: turns, w =>
    if check w then
      match (scan.step fn w.db.next 2 w.vars).exec (fun _ => {}) w.db with
      | some (.ok vars, db) => scan.play fn check turns ⟨db, vars⟩
      | _ => none
    else none
  | some c :: turns, w =>
    match (call 0 1 U64Key.make c).exec (fun _ => {}) w.db with
    | some (_, db) => scan.play fn check turns ⟨db, w.vars⟩
    | none => none

theorem Scans.play {may : Scanning sizes σ → Prop} {check : Scanning sizes σ → Bool}
    {turns : List (Option (Call (BitVec 64)))} {w' : Scanning sizes σ}
    (h : Scans may scan fn state o₀ (w :: ws)) (hcheck : ∀ w, check w → may w)
    (hupdates : ∀ c, some c ∈ turns → IsUpdate c) (hplay : scan.play fn check turns w = some w') :
    ∃ ws', Scans may scan fn state o₀ (w' :: ws') := by
  induction turns generalizing w ws with
  | nil =>
    obtain rfl := Option.some_inj.mp hplay
    exact ⟨ws, h⟩
  | cons turn turns ih =>
    have hrest : ∀ c, some c ∈ turns → IsUpdate c := fun c hc => hupdates c (List.mem_cons_of_mem _ hc)
    cases turn with
    | none =>
      rw [Scan.play] at hplay
      split at hplay
      case isFalse => cases hplay
      rename_i hmay
      split at hplay
      case h_2 => cases hplay
      rename_i vars db hexec
      exact ih (h.step (hcheck w hmay) hexec) hrest hplay
    | some c =>
      rw [Scan.play] at hplay
      split at hplay
      case h_2 => cases hplay
      rename_i r db hexec
      exact ih (h.update (hupdates c List.mem_cons_self) ⟨0, 0, _, hexec⟩) hrest hplay

/-- A stored key is no dead end. -/
theorem not_deadEnd_of_mem {K : Set (List UInt8)} {k : List UInt8} {fwd : Bool} (hk : k ∈ K) :
    ¬ DeadEnd K k fwd := by
  rintro ⟨w, b, -, hwk, hbehind, -⟩
  exact Toward.irrefl b (hbehind k hk b hwk)

/-- The leaf of the iterator is still in the tree. -/
def Scanning.atStored (w : Scanning sizes σ) : Bool :=
  match w.vars.it.stack with
  | [] => true
  | e :: _ =>
    match w.db.counted.deref e.node with
    | some (.leaf _ _) => true
    | _ => false

theorem unhindered_of_atStored (hfirst : ∀ k fwd, scan.first ≠ some (.seek k fwd)) (h : w.atStored) :
    scan.Unhindered w := by
  refine ⟨fun _ k fwd hseek => absurd hseek (hfirst k fwd), ?_⟩
  rintro - entry ⟨e, stack, hstack, hleaf⟩
  rw [Scanning.atStored, hstack] at h
  dsimp only at h
  split at h
  case h_2 => cases h
  rename_i k v hcounted
  obtain ⟨hheap, -⟩ := Tree.deref_eq_some_iff.mp hcounted
  have hmem : w.db.mem.heap e.node.addr = some (.leaf k v) := by
    rw [counted_heap] at hheap
    split at hheap
    case isTrue => cases hheap
    case isFalse => exact hheap
  obtain ⟨hk, hv⟩ := Body.leaf.inj (Option.some_inj.mp (hmem.symm.trans
    (Tree.deref_eq_some_iff.mp hleaf).1))
  have hstored : k ∈ w.db.counted.Keys := ⟨v, e.node.addr, hheap⟩
  exact not_deadEnd_of_mem (hk ▸ hstored)

end Runs

/-- A function that does not halt the scan. -/
def visitAll : Visitor Unit := fun _ _ => (false, ())

/-- The keys visited, where the scan has come to this phase. -/
def visitedIs (w : Scanning sizes Unit) (keys : List (BitVec 64)) (phase : Scan.Phase) : Bool :=
  w.vars.visited.map Prod.fst == keys.map (Db.view U64Key.make) && decide (w.vars.phase = phase)

/-- A scan has come to the leaf of the first key when others remove the next one, which collapses the
    node over both, and insert another one: it seeks the first key again and goes on from there. -/
theorem scanLaw_of_scans_collapsed : ∃ events, ∃ o₀ : OlcDb .olcDb, ∃ w ws,
    Run (Performs U64Key.make) (.empty .olcDb) events o₀ ∧
    Scans (Scan.scan true).Unhindered (.scan true) visitAll () o₀ (w :: ws) ∧
    w.vars.visited.map Prod.fst = [0x0101, 0x0103, 0x0201].map (Db.view U64Key.make) ∧
    w.vars.phase = .done false ∧ ScanLaw (.scan true) w ws := by
  have hruns : ((runCalls 0 (fun _ => {}) U64Key.make
      [.insert 0x0101 [], .insert 0x0102 [], .insert 0x0201 []] (.empty .olcDb)).any fun r =>
        ((Scan.scan true).play visitAll Scanning.atStored ([none, none, none] ++
          [some (.remove 0x0102), some (.insert 0x0103 [])] ++ List.replicate 8 none)
          ⟨r.2, .new ()⟩).any fun w => visitedIs w [0x0101, 0x0103, 0x0201] (.done false)) = true := by
    decide +kernel
  obtain ⟨⟨rs, o₀⟩, hruns, hboth⟩ := (Option.any_eq_true _ _).mp hruns
  obtain ⟨w, hplay, hvisited⟩ := (Option.any_eq_true _ _).mp hboth
  obtain ⟨hkeys, hphase⟩ := Bool.and_eq_true_iff.mp hvisited
  have hrun := run_of_runCalls hruns
  have hstart : Scans (Scan.scan true).Unhindered (.scan true) visitAll () o₀ [⟨o₀, .new ()⟩] := .start
  obtain ⟨ws, hscans⟩ := hstart.play (fun w => unhindered_of_atStored nofun) (by simp [IsUpdate]) hplay
  exact ⟨_, o₀, w, ws, hrun, hscans, eq_of_beq hkeys, of_decide_eq_true hphase,
    (scanLaw_of_scans hrun hscans).1⟩

/-- A scan has visited 0x0103 when another thread removes that key: the search for it comes to a dead
    end, and the scan goes on at the first key again. -/
theorem not_scanLaw_removed : ∃ events, ∃ o₀ : OlcDb .olcDb, ∃ w ws,
    events.map (·.1) = [.insert 0x0101 [], .insert 0x0102 [], .insert 0x0103 [], .insert 0x0201 [],
      .insert 0x010000 []] ∧
    Run (Performs U64Key.make) (.empty .olcDb) events o₀ ∧
    Scans (fun _ => True) (.scan true) visitAll () o₀ (w :: ws) ∧
    w.vars.visited.map Prod.fst = [0x0101, 0x0102, 0x0103, 0x0101].map (Db.view U64Key.make) ∧
    ¬ ScanLaw (.scan true) w ws := by
  have hruns : ((runCalls 0 (fun _ => {}) U64Key.make
      [.insert 0x0101 [], .insert 0x0102 [], .insert 0x0103 [], .insert 0x0201 [],
        .insert 0x010000 []] (.empty .olcDb)).any fun r => r.1.length = 5 &&
        ((Scan.scan true).play visitAll (fun _ => true) (List.replicate 9 none ++
          [some (.remove 0x0103), none, none, none])
          ⟨r.2, .new ()⟩).any fun w => visitedIs w [0x0101, 0x0102, 0x0103, 0x0101] .move) = true := by
    decide +kernel
  obtain ⟨⟨rs, o₀⟩, hruns, hboth⟩ := (Option.any_eq_true _ _).mp hruns
  obtain ⟨hlen, hboth⟩ := Bool.and_eq_true_iff.mp hboth
  obtain ⟨w, hplay, hvisited⟩ := (Option.any_eq_true _ _).mp hboth
  obtain ⟨hkeys, -⟩ := Bool.and_eq_true_iff.mp hvisited
  have hkeys := eq_of_beq hkeys
  have hstart : Scans (fun _ => True) (.scan true) visitAll () o₀ [⟨o₀, .new ()⟩] := .start
  obtain ⟨ws, hscans⟩ := hstart.play (fun _ _ => trivial) (by simp [IsUpdate]) hplay
  refine ⟨_, o₀, w, ws, List.map_fst_zip ?_, run_of_runCalls hruns, hscans, hkeys, fun hlaw => ?_⟩
  · exact Nat.le_of_eq (of_decide_eq_true hlen).symm
  obtain ⟨keys, heq, hsorted, -⟩ := hlaw.ordered
  obtain rfl := List.map_injective_iff.mpr Db.view_u64_injective (hkeys.symm.trans heq)
  have hsorted : [0x0101, 0x0102, 0x0103, 0x0101].Pairwise (fun a b : BitVec 64 => a < b) := hsorted
  revert hsorted
  decide

end OlcDb

end Unodb
