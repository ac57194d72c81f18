import Unodb.Olc.Keybuf
import Unodb.Olc.Statistics
import Unodb.Olc.Scan

/-!
# One thread on an `olc_db`

A thread that has an `olc_db` for itself finds in it the `db` that the same calls would have made:
every operation succeeds at its first attempt, with the same result, and the two have the same
abstract tree and the same counters.  Only the key buffers of their iterators may differ, since
`invalidate` of the one leaves the buffer as it is.
-/

namespace Unodb

/-! ## 1. Bytes that nothing reads -/

namespace Iterator

/-- The iterator with more bytes at the front of its key buffer. -/
def behind (junk : List UInt8) (it : Iterator) : Iterator := ⟨it.stack, junk ++ it.keybuf⟩

variable {κ : Type} [ArtKey κ] {s : Db dbSizes} {t : Tree} {fwd : Bool} {fuel : Nat} {p : NodePtr}
  {e : StackEntry} {keybuf : List UInt8} {stack : List StackEntry} {k rem : κ} (junk : List UInt8)
  (it : Iterator)

theorem push_behind {e : IterResult} :
    CarriesOver (fun a b => b = a.behind junk) (it.push p e) ((it.behind junk).push p e) := by
  refine .same fun _ => .ok ?_
  simp [behind]

theorem popKeybuf_behind :
    CarriesOver (fun a b => b = junk ++ a) (popKeybuf keybuf e) (popKeybuf (junk ++ keybuf) e) := by
  intro keybuf' h
  rw [popKeybuf] at h ⊢
  by_cases hle : e.keyPrefix.length ≤ keybuf.length
  · rw [assertThat_pos hle] at h
    obtain rfl := Except.ok.inj h
    rw [assertThat_pos (by rw [List.length_append]; omega)]
    refine ⟨_, rfl, ?_⟩
    rw [List.length_append, Nat.add_sub_assoc hle, List.take_length_add_append]
  · rw [assertThat, if_neg hle] at h
    cases h

theorem traversal_behind :
    CarriesOver (fun a b => b = a.behind junk) (traversal t fwd fuel p it)
      (traversal t fwd fuel p (it.behind junk)) := by
  induction fuel generalizing p it with
  | zero => exact .error
  | succ fuel ih =>
    rw [traversal, traversal]
    refine .ite (.ok rfl) (.same fun n => .same fun e => .bind (push_behind junk it) ?_)
    rintro it₁ _ rfl
    cases n.getChild e.childIndex with
    | none => exact .error
    | some c => exact ih it₁

theorem advance_behind :
    CarriesOver (fun a b => b = a.behind junk) (advance s fwd stack keybuf)
      (advance s fwd stack (junk ++ keybuf)) := by
  induction stack generalizing keybuf with
  | nil => exact .ok rfl
  | cons e stack ih =>
    rw [advance, advance]
    refine .ite (.bind (popKeybuf_behind junk) ?_) (.same fun n => .same fun next => ?_)
    · rintro keybuf₁ _ rfl
      exact ih
    · cases next with
      | none =>
        refine .bind (popKeybuf_behind junk) ?_
        rintro keybuf₁ _ rfl
        exact ih
      | some e2 =>
        refine .bind (popKeybuf_behind junk) ?_
        rintro keybuf₁ _ rfl
        refine .bind (push_behind junk ⟨stack, keybuf₁⟩) ?_
        rintro it₁ _ rfl
        cases n.getChild e2.childIndex with
        | none => exact .error
        | some c => exact traversal_behind junk it₁

theorem unwind_behind :
    CarriesOver (fun a b => b = a.behind junk) (unwind s fwd stack keybuf)
      (unwind s fwd stack (junk ++ keybuf)) := by
  induction stack generalizing keybuf with
  | nil => exact .ok rfl
  | cons e stack ih =>
    rw [unwind, unwind]
    refine .same fun n => .same fun next => ?_
    cases next with
    | none =>
      refine .bind (popKeybuf_behind junk) ?_
      rintro keybuf₁ _ rfl
      exact ih
    | some _ =>
      cases n.getChild e.childIndex with
      | none => exact .error
      | some c => exact traversal_behind junk ⟨e :: stack, keybuf⟩

/-- A result without a match. -/
theorem unmatched_behind {x y : Except Fault Iterator}
    (h : CarriesOver (fun a b => b = a.behind junk) x y) :
    CarriesOver (fun a b => b = (a.1.behind junk, a.2)) (do return (← x, false))
      (do return (← y, false)) := by
  refine .bind h ?_
  rintro it _ rfl
  exact .ok rfl

theorem seekLoop_behind :
    CarriesOver (fun a b => b = (a.1.behind junk, a.2)) (seekLoop s k fwd fuel p rem it)
      (seekLoop s k fwd fuel p rem (it.behind junk)) := by
  induction fuel generalizing p rem it with
  | zero => exact .error
  | succ fuel ih =>
    rw [seekLoop, seekLoop]
    refine .ite (.same fun leaf => .ite (.ok rfl) (.ite (.ok rfl) ?_))
      (.same fun n => .ite (.same fun b => .same fun b' => .same fun _ => .ite ?_ ?_)
        (.same fun rem₁ => .same fun b => ?_))
    · exact unmatched_behind junk (advance_behind junk)
    · refine .bind (traversal_behind junk it) ?_
      rintro it₁ _ rfl
      exact .ite (.ok rfl) (unmatched_behind junk (advance_behind junk))
    · refine .bind (traversal_behind junk it) ?_
      rintro it₁ _ rfl
      exact .ite (unmatched_behind junk (advance_behind junk)) (.ok rfl)
    · cases n.findChild b with
      | none =>
        cases n.nearest fwd b with
        | none =>
          obtain ⟨stack, keybuf⟩ := it
          cases stack with
          | nil => exact .ok rfl
          | cons e stack =>
            refine .bind (popKeybuf_behind junk) ?_
            rintro keybuf₁ _ rfl
            exact unmatched_behind junk (unwind_behind junk)
        | some e =>
          dsimp only
          cases n.getChild e.childIndex with
          | none => exact .error
          | some c =>
            refine .bind (push_behind junk it) ?_
            rintro it₁ _ rfl
            exact unmatched_behind junk (traversal_behind junk it₁)
      | some r =>
        refine .bind (push_behind junk it) ?_
        rintro it₁ _ rfl
        exact .same fun c => .same fun rem₂ => ih it₁

end Iterator

/-! ## 2. Calls of an iterator -/

section Code

variable {κ : Type}

/-- A call of an iterator of `db`, with what it returns. -/
def IterCall.perform [ArtKey κ] (s : Db dbSizes) (it : Iterator) :
    IterCall κ → Except Fault (Iterator × OlcDb.Response)
  | .move mv => do return (← it.move s mv, .moved)
  | .seek searchKey fwd => do
    let (it, exactMatch) ← Iterator.seek s searchKey fwd
    return (it, .sought exactMatch)
  | .invalidate => return (.invalid, .moved)

/-- A call of an iterator of `olc_db`, with a single attempt. -/
def IterCall.olcPerform [StoredKey κ] (fuel : Nat) (it : OlcIterator) (call : IterCall κ) :
    OlcM sizes (OlcIterator × OlcDb.Response) :=
  match call.operation with
  | some op => op.run fuel 1 it
  | none => return (it.invalidate, .moved)

/-- `get_key` and `get_val`, if the iterator is valid. -/
def Iterator.shown (s : Db dbSizes) (it : Iterator) : Except Fault (Option Entry) :=
  if it.valid then do return some (← it.entry s.tree) else return none

/-- `get_key` and `get_val`, if the iterator is valid. -/
def OlcIterator.shown (it : OlcIterator) : OlcM sizes (Option Entry) :=
  match it.stack with
  | [] => return none
  | e :: _ => do
    Prog.lift (assertThat (e.node.type = .leaf))
    return some (← OlcDb.readLeaf e.node)

/-- Calls of one iterator: what each returns, and the entry that the iterator is at then. -/
def Iterator.walk [ArtKey κ] (s : Db dbSizes) :
    List (IterCall κ) → Iterator → Except Fault (List (OlcDb.Response × Option Entry))
  | [], _ => return []
  | call :: calls, it => do
    let (it, response) ← call.perform s it
    let entry ← it.shown s
    return (response, entry) :: (← walk s calls it)

/-- The same for an iterator of `olc_db`. -/
def OlcIterator.walk [StoredKey κ] (fuel : Nat) :
    List (IterCall κ) → OlcIterator → OlcM sizes (List (OlcDb.Response × Option Entry))
  | [], _ => return []
  | call :: calls, it => do
    let (it, response) ← call.olcPerform fuel it
    let entry ← it.shown
    return (response, entry) :: (← walk fuel calls it)

namespace OlcDb

variable {σ : Type} (fuel rounds limit : Nat) (fn : Visitor σ) (state : σ)

/-- `scan`. -/
def scan (κ : Type) [StoredKey κ] (fwd : Bool) : OlcM sizes (List Entry) := do
  let (it, _) ← (IterOperation.outermost fwd : IterOperation κ).run fuel rounds .new
  scanLoop κ fuel rounds fwd (fun _ => true) fn limit it state

variable [StoredKey κ]

/-- `scan_from`, for an internal key. -/
def scanFrom (fromKey : κ) (fwd : Bool) : OlcM sizes (List Entry) := do
  let (it, _) ← (IterOperation.seek fromKey fwd).run fuel rounds .new
  scanLoop κ fuel rounds fwd (fun _ => true) fn limit it state

/-- `scan_range`, for internal keys and the result of comparing them. -/
def scanRange (fromKey toKey : κ) (ret : Int) : OlcM sizes (List Entry) :=
  if ret = 0 then return []
  else do
    let fwd := decide (ret < 0)
    let (it, _) ← (IterOperation.seek fromKey fwd).run fuel rounds .new
    scanLoop κ fuel rounds fwd (Db.within fwd (ArtKey.getKeyView toKey)) fn limit it state

end OlcDb

end Code

namespace OlcDb

/-- The iterator is where the one of `db` is; only bytes of its buffer that nothing reads differ. -/
structure Tracks (o : OlcDb sizes) (it : Iterator) (jt : OlcIterator) : Prop where
  plain : ∃ junk, jt.plain = it.behind junk
  fresh : o.Fresh jt.stack

variable {κ : Type} [StoredKey κ] {K : Set (List UInt8)} {path : NodePtr → List UInt8}
  {lost : NodeType → Nat} {s : Db dbSizes} {o : OlcDb sizes} {it it' : Iterator} {jt : OlcIterator}

theorem Tracks.of_moved {junk : List UInt8} {r : Tried} (h : o.Moved (it.behind junk) r) :
    r = (r.1, true) ∧ o.Tracks it r.1 := by
  obtain ⟨hok, hplain, hfresh⟩ := h
  exact ⟨Prod.ext rfl hok, ⟨junk, hplain⟩, hfresh⟩

theorem tracks_invalidate (o : OlcDb sizes) (jt : OlcIterator) : o.Tracks .invalid jt.invalidate := by
  refine ⟨⟨jt.keybuf, ?_⟩, fun e he => absurd he List.not_mem_nil⟩
  simp [OlcIterator.plain, OlcIterator.invalidate, Iterator.behind, Iterator.invalid]

/-- More bytes in the buffer do not move an iterator. -/
theorem placed_behind (hit : it.Placed s.tree) (junk : List UInt8) :
    (it.behind junk).Placed s.tree := by
  refine hit.imp id fun ⟨k, v, hon⟩ => ⟨k, v, hon.at_leaf, ?_⟩
  have hlen := hon.buffered
  simp only [Iterator.behind, List.length_append]
  omega

/-- Where `db` succeeds, so does what simulates it. -/
theorem Simulates.of_ok {α β : Type} {R : α → β → Prop} {x : Except Fault α} {p : OlcM sizes β} {a : α}
    (h : Simulates o R x p) (hx : x = .ok a) : ∃ b, p.Yields o (.ok b) o ∧ R a b := by
  obtain ⟨r, hr, ⟨a', b, ha, rfl, hab⟩ | ⟨e, e', he, -⟩⟩ := h
  · obtain rfl := Except.ok.inj (hx.symm.trans ha)
    exact ⟨b, hr, hab⟩
  · cases hx.symm.trans he

omit [StoredKey κ] in
theorem outermost_eq (s : Db dbSizes) (fwd : Bool) :
    (if fwd then Iterator.first s else Iterator.last s) = s.tree.root.elim (.ok .invalid)
      fun root => Iterator.traversal s.tree fwd s.next root .invalid := by
  cases fwd with
  | true =>
    rw [if_pos rfl, Iterator.first]
    cases s.tree.root <;> rfl
  | false =>
    rw [if_neg Bool.false_ne_true, Iterator.last]
    cases s.tree.root <;> rfl

section Calls

variable (h : s.Inv K path lost) (hq : o.Quiet s) (fwd : Bool)
include h hq

theorem tryOutermost_tracks
    (hx : (if fwd then Iterator.first s else Iterator.last s) = .ok it') (jt : OlcIterator) :
    ∃ jt', (tryOutermost s.next fwd jt).Yields o (.ok (jt', true)) o ∧ o.Tracks it' jt' := by
  obtain ⟨version, hlock⟩ := hq.root_free
  have hroot : o.Valid ⟨.root, version⟩ := hlock
  have htracks := tracks_invalidate o jt
  have hx' := (outermost_eq s fwd).symm.trans hx
  cases hread : s.tree.root with
  | none =>
    rw [hread] at hx'
    cases hx'
    refine ⟨jt.invalidate, (yields_tryReadLock hlock).bind (yields_loadRoot.bind ?_), htracks⟩
    rw [hq.root_eq, hread]
    exact (yields_check hroot).bind (Prog.Yields.ret _ _)
  | some root =>
    rw [hread] at hx'
    obtain ⟨junk, hplain⟩ := htracks.plain
    obtain ⟨_, hx', rfl⟩ := Iterator.traversal_behind junk .invalid it' hx'
    rw [← hplain] at hx'
    obtain ⟨r, hr, hmoved⟩ := (tryTraversal_simulates h.tree hq fwd jt.invalidate
      (show s.tree.graph.read .root = some root from hread) hroot htracks.fresh).of_ok hx'
    obtain ⟨heq, htracks'⟩ := Tracks.of_moved hmoved
    rw [heq] at hr
    refine ⟨r.1, (yields_tryReadLock hlock).bind (yields_loadRoot.bind ?_), htracks'⟩
    rw [hq.root_eq, hread]
    exact hr

theorem tryAdvance_tracks (htracks : o.Tracks it jt) (hit : it.Placed s.tree)
    (hx : Iterator.advance s fwd it.stack it.keybuf = .ok it') :
    ∃ jt', (tryAdvance s.next fwd jt.stack jt.keybuf).Yields o (.ok (jt', true)) o ∧
      o.Tracks it' jt' := by
  obtain ⟨junk, hplain⟩ := htracks.plain
  obtain ⟨_, hx', rfl⟩ := Iterator.advance_behind junk it' hx
  have hplaced := placed_behind hit junk
  rw [← hplain] at hplaced
  have hx : Iterator.advance s fwd jt.plain.stack jt.plain.keybuf = .ok (it'.behind junk) := by
    rw [hplain]
    exact hx'
  obtain ⟨r, hr, hmoved⟩ := (tryAdvance_simulates h.tree hq fwd hplaced htracks.fresh).of_ok hx
  obtain ⟨heq, htracks'⟩ := Tracks.of_moved hmoved
  rw [heq] at hr
  exact ⟨r.1, hr, htracks'⟩

theorem trySeek_tracks {k : κ} {m : Bool} (hx : Iterator.seek s k fwd = .ok (it', m))
    (jt : OlcIterator) :
    ∃ jt', (trySeek s.next k fwd jt).Yields o (.ok (jt', some m)) o ∧ o.Tracks it' jt' := by
  obtain ⟨version, hlock⟩ := hq.root_free
  have hroot : o.Valid ⟨.root, version⟩ := hlock
  have htracks := tracks_invalidate o jt
  rw [Iterator.seek] at hx
  cases hread : s.tree.root with
  | none =>
    rw [hread] at hx
    cases hx
    refine ⟨jt.invalidate, (yields_tryReadLock hlock).bind (yields_loadRoot.bind ?_), htracks⟩
    rw [hq.root_eq, hread]
    exact (yields_check hroot).bind (Prog.Yields.ret _ _)
  | some root =>
    rw [hread] at hx
    obtain ⟨junk, hplain⟩ := htracks.plain
    obtain ⟨_, hx', rfl⟩ := Iterator.seekLoop_behind junk .invalid _ hx
    rw [← hplain] at hx'
    obtain ⟨⟨jt', m'⟩, hr, hmatch, hplain', hfresh⟩ := (seekLoop_simulates h hq k fwd .root
      (Nat.zero_le _) htracks.fresh (show s.tree.graph.read .root = some root from hread)
      hroot).of_ok hx'
    dsimp only at hmatch
    subst hmatch
    refine ⟨jt', (yields_tryReadLock hlock).bind (yields_loadRoot.bind ?_), ⟨junk, hplain'⟩, hfresh⟩
    rw [hq.root_eq, hread]
    exact (yields_check hroot).bind hr

omit [StoredKey κ] hq in
theorem outermost_placed : ∃ it', (if fwd then Iterator.first s else Iterator.last s) = .ok it' ∧
    it'.Placed s.tree := by
  have houtermost : ∃ it', s.tree.root.elim (.ok .invalid) (fun root =>
      Iterator.traversal s.tree fwd s.next root .invalid) = Except.ok it' ∧ it'.Placed s.tree := by
    cases hroot : s.tree.root with
    | none => exact ⟨_, rfl, .inl rfl⟩
    | some root =>
      obtain ⟨it', k, v, hrun, hon, -⟩ := Iterator.outermost_spec h.tree fwd h.heightLE root hroot
      exact ⟨it', hrun, .inr ⟨k, v, hon⟩⟩
  rw [outermost_eq]
  exact houtermost

omit hq in
/-- On its tree an iterator of `db` always gets to an entry or to the end. -/
theorem perform_placed (hseek : ∀ (k : κ) fwd, ∃ it m, Iterator.seek s k fwd = .ok (it, m) ∧
      it.Placed s.tree) (hit : it.Placed s.tree) (call : IterCall κ) :
    ∃ it' r, call.perform s it = .ok (it', r) ∧ it'.Placed s.tree := by
  have hadvance : ∀ fwd, ∃ it', Iterator.advance s fwd it.stack it.keybuf = .ok it' ∧
      it'.Placed s.tree := by
    intro fwd
    rcases hit with hend | ⟨k, v, hon⟩
    · rw [hend]
      exact ⟨_, rfl, .inl rfl⟩
    · obtain ⟨it', hrun, hnext⟩ := hon.advance_cases h fwd
      exact ⟨it', hrun, Iterator.placed_of_on hnext⟩
  have hmove : ∀ mv, ∃ it', it.move s mv = .ok it' ∧ it'.Placed s.tree := by
    intro mv
    cases mv with
    | first => exact outermost_placed h true
    | last => exact outermost_placed h false
    | next => exact hadvance true
    | prior => exact hadvance false
  cases call with
  | move mv =>
    obtain ⟨it', hrun, hplaced⟩ := hmove mv
    exact ⟨it', .moved, by rw [IterCall.perform, hrun]; rfl, hplaced⟩
  | seek k fwd =>
    obtain ⟨it', m, hrun, hplaced⟩ := hseek k fwd
    exact ⟨it', .sought m, by rw [IterCall.perform, hrun]; rfl, hplaced⟩
  | invalidate => exact ⟨_, _, rfl, .inl rfl⟩

omit h hq in
/-- The leaf that an iterator is at. -/
theorem Tracks.at_leaf (htracks : o.Tracks it jt) {k v : List UInt8} (hon : it.On s.tree k v) :
    ∃ e stack, jt.stack = e :: stack ∧ s.tree.deref e.node = some (.leaf k v) := by
  obtain ⟨junk, hplain⟩ := htracks.plain
  obtain ⟨stack₀, slot, p, hstack, -, -, hp⟩ := hon.at_leaf
  have hstacks : jt.stack.map OlcStackEntry.toStackEntry = Iterator.leafEntry p :: stack₀ :=
    (congrArg Iterator.stack hplain).trans hstack
  obtain ⟨e, stack, hjt, he, -⟩ := List.map_eq_cons_iff.mp hstacks
  have hnode : e.node = p := congrArg StackEntry.node he
  exact ⟨e, stack, hjt, hnode ▸ hp⟩

omit h hq in
/-- An operation whose first attempt is its last. -/
theorem run_of_attempt {op : IterOperation κ} {jt' : OlcIterator} {r : Response}
    (hattempt : (op.attempt s.next jt).Yields o (.ok (jt', .done r)) o) :
    (op.run s.next 1 jt).Yields o (.ok (jt', r)) o := by
  rw [IterOperation.run]
  exact hattempt.bind (Prog.Yields.ret _ _)

/-- `next` and `prior`. -/
theorem advance_tracks (htracks : o.Tracks it jt) (hit : it.Placed s.tree)
    (hx : Iterator.advance s fwd it.stack it.keybuf = .ok it') :
    ∃ jt', ((IterOperation.advance fwd : IterOperation κ).run s.next 1 jt).Yields o
      (.ok (jt', .moved)) o ∧ o.Tracks it' jt' := by
  obtain ⟨jt', hyields, htracks'⟩ := tryAdvance_tracks h hq fwd htracks hit hx
  rcases hit with hend | ⟨k, v, hon⟩
  · obtain ⟨junk, hplain⟩ := htracks.plain
    have hnil : jt.stack = [] :=
      List.map_eq_nil_iff.mp ((congrArg Iterator.stack hplain).trans hend)
    have hjt : jt = ⟨[], jt.keybuf⟩ := by
      obtain ⟨stack, keybuf⟩ := jt
      cases hnil
      rfl
    rw [hnil, tryAdvance, ← hjt] at hyields
    obtain rfl : jt = jt' := by
      have hsame := hyields fun _ => {}
      cases hsame
      rfl
    refine ⟨jt, run_of_attempt ?_, htracks'⟩
    rw [IterOperation.attempt, hnil]
    exact Prog.Yields.ret _ _
  · obtain ⟨e, stack, hjt, hleaf⟩ := htracks.at_leaf hon
    have htype : e.node.type = .leaf := (Tree.deref_eq_some_iff.mp hleaf).2.symm
    refine ⟨jt', run_of_attempt ?_, htracks'⟩
    rw [IterOperation.attempt, hjt]
    dsimp only
    rw [assertThat_pos htype]
    rw [hjt] at hyields
    exact (Prog.Yields.lift (.ok ()) o).bind ((yields_readKey hq hleaf).bind
      (hyields.bind (Prog.Yields.ret _ _)))

/-- A call of an iterator ends at its first attempt, as the call of `db` does. -/
theorem perform_tracks (htracks : o.Tracks it jt) (hit : it.Placed s.tree) {call : IterCall κ}
    {r : Response} (hx : call.perform s it = .ok (it', r)) :
    ∃ jt', (call.olcPerform s.next jt).Yields o (.ok (jt', r)) o ∧ o.Tracks it' jt' := by
  have houtermost : ∀ fwd, (if fwd then Iterator.first s else Iterator.last s) = .ok it' →
      ∃ jt', ((IterOperation.outermost fwd : IterOperation κ).run s.next 1 jt).Yields o
        (.ok (jt', .moved)) o ∧ o.Tracks it' jt' := by
    intro fwd hfirst
    obtain ⟨jt', hyields, htracks'⟩ := tryOutermost_tracks h hq fwd hfirst jt
    exact ⟨jt', run_of_attempt (hyields.bind (Prog.Yields.ret _ _)), htracks'⟩
  cases call with
  | move mv =>
    obtain ⟨it₁, hmove, hr⟩ := ok_of_bind hx
    cases hr
    cases mv with
    | first => exact houtermost true hmove
    | last => exact houtermost false hmove
    | next => exact advance_tracks h hq true htracks hit hmove
    | prior => exact advance_tracks h hq false htracks hit hmove
  | seek k fwd =>
    obtain ⟨⟨it₁, m⟩, hseek, hr⟩ := ok_of_bind hx
    cases hr
    obtain ⟨jt', hyields, htracks'⟩ := trySeek_tracks h hq fwd hseek jt
    exact ⟨jt', run_of_attempt (hyields.bind (Prog.Yields.ret _ _)), htracks'⟩
  | invalidate =>
    cases hx
    exact ⟨jt.invalidate, Prog.Yields.ret _ _, tracks_invalidate o jt⟩

omit h in
/-- The entry that an iterator shows. -/
theorem shown_tracks (htracks : o.Tracks it jt) (hit : it.Placed s.tree) :
    ∃ x, it.shown s = .ok x ∧ jt.shown.Yields o (.ok x) o := by
  rcases hit with hend | ⟨k, v, hon⟩
  · obtain ⟨junk, hplain⟩ := htracks.plain
    have hnil : jt.stack = [] :=
      List.map_eq_nil_iff.mp ((congrArg Iterator.stack hplain).trans hend)
    refine ⟨none, ?_, ?_⟩
    · rw [Iterator.shown, if_neg (by simp [Iterator.valid, hend])]
      rfl
    · rw [OlcIterator.shown, hnil]
      exact Prog.Yields.ret _ _
  · obtain ⟨hvalid, hentry⟩ := hon.entry_eq
    obtain ⟨e, stack, hjt, hleaf⟩ := htracks.at_leaf hon
    have htype : e.node.type = .leaf := (Tree.deref_eq_some_iff.mp hleaf).2.symm
    refine ⟨some (k, v), ?_, ?_⟩
    · rw [Iterator.shown, if_pos hvalid, hentry]
      rfl
    · rw [OlcIterator.shown, hjt]
      dsimp only
      rw [assertThat_pos htype]
      exact (Prog.Yields.lift (.ok ()) o).bind ((yields_readLeaf hq hleaf).bind
        (Prog.Yields.ret _ _))

theorem walk_tracks (hseek : ∀ (k : κ) fwd, ∃ it m, Iterator.seek s k fwd = .ok (it, m) ∧
      it.Placed s.tree) (calls : List (IterCall κ)) (htracks : o.Tracks it jt)
    (hit : it.Placed s.tree) :
    ∃ rs, Iterator.walk s calls it = .ok rs ∧
      (OlcIterator.walk s.next calls jt).Yields o (.ok rs) o := by
  induction calls generalizing it jt with
  | nil => exact ⟨[], rfl, Prog.Yields.ret _ _⟩
  | cons call calls ih =>
    obtain ⟨it', r, hperform, hit'⟩ := perform_placed h hseek hit call
    obtain ⟨jt', hyields, htracks'⟩ := perform_tracks h hq htracks hit hperform
    obtain ⟨x, hx, hshown⟩ := shown_tracks hq htracks' hit'
    obtain ⟨rs, hrest, hyields'⟩ := ih htracks' hit'
    refine ⟨(r, x) :: rs, ?_, ?_⟩
    · rw [Iterator.walk, hperform]
      simp only [bind, Except.bind, hx, hrest]
      rfl
    · rw [OlcIterator.walk]
      exact hyields.bind (hshown.bind (hyields'.bind (Prog.Yields.ret _ _)))

end Calls

/-! ## 3. Scans -/

section Scans

variable {σ : Type} (h : s.Inv K path lost) (hq : o.Quiet s) (fwd : Bool) (inside : List UInt8 → Bool)
  (fn : Visitor σ) (state : σ)
include h

omit [StoredKey κ] in
/-- The loop of `db` ends before its bound. -/
theorem scanLoop_ok (hit : it.Placed s.tree) :
    ∃ entries, Db.scanLoop s fwd inside fn (s.next + 1) it state = .ok entries := by
  obtain ⟨hfin, hcard⟩ := h.keys_card
  have hroom : ∀ k v, it.On s.tree k v → (s.tree.beyond fwd k).ncard + 1 ≤ s.next := by
    intro k v hon
    have hlt : (s.tree.beyond fwd k).ncard < s.tree.Keys.ncard := by
      refine Set.ncard_lt_ncard ⟨fun x hx => hx.1, fun hsub => ?_⟩ hfin
      exact Toward.irrefl k (hsub ⟨v, Tree.binds_iff.mp hon.binds⟩).2
    omega
  obtain ⟨entries, hrun, -⟩ := scanLoop_offers h inside hit hroom
  exact ⟨_, hrun fn state⟩

include hq

/-- The loop of `olc_db` on the iterator with which a first operation ends. -/
theorem loop_agrees {op : IterOperation κ} {x : Except Fault Iterator}
    (hop : Simulates o (Ended o) x (op.attempt s.next .new)) (hx : x = .ok it)
    (hit : it.Placed s.tree) :
    ∃ entries, Db.scanLoop s fwd inside fn (s.next + 1) it state = .ok entries ∧
      (op.run s.next 1 .new >>= fun r =>
        scanLoop κ s.next 1 fwd inside fn (s.next + 1) r.1 state).Yields o (.ok entries) o := by
  have hsimulates : Simulates o (fun it r => o.Carried it r.1) x (op.run s.next (0 + 1) .new) :=
    run_simulates hop
  obtain ⟨⟨jt, r⟩, hrun, hplain, hfresh⟩ := hsimulates.of_ok hx
  dsimp only at hplain hfresh
  obtain ⟨entries, hloop⟩ := scanLoop_ok h fwd inside fn state hit
  subst hplain
  have hsame : Simulates o (· = ·) (Db.scanLoop s fwd inside fn (s.next + 1) jt.plain state)
      (scanLoop κ s.next (0 + 1) fwd inside fn (s.next + 1) jt state) :=
    scanLoop_simulates h hq hit hfresh
  obtain ⟨_, hyields, rfl⟩ := hsame.of_ok hloop
  exact ⟨entries, hloop, hrun.bind hyields⟩

theorem scan_agrees :
    ∃ entries, Db.scan fn state s fwd = .ok entries ∧
      (scan s.next 1 (s.next + 1) fn state κ fwd).Yields o (.ok entries) o := by
  obtain ⟨it, hfirst, hit⟩ := outermost_placed h fwd
  obtain ⟨entries, hloop, hyields⟩ := loop_agrees h hq fwd (fun _ => true) fn state
    (outermost_simulates (κ := κ) h hq fwd rfl) hfirst hit
  refine ⟨entries, ?_, hyields⟩
  rw [Db.scan]
  cases fwd with
  | true =>
    rw [show Iterator.first s = .ok it from hfirst]
    exact hloop
  | false =>
    rw [show Iterator.last s = .ok it from hfirst]
    exact hloop

theorem seekScan_agrees {k : κ} {m : Bool} (hseek : Iterator.seek s k fwd = .ok (it, m))
    (hit : it.Placed s.tree) :
    ∃ entries, Db.scanLoop s fwd inside fn (s.next + 1) it state = .ok entries ∧
      ((IterOperation.seek k fwd).run s.next 1 .new >>= fun r =>
        scanLoop κ s.next 1 fwd inside fn (s.next + 1) r.1 state).Yields o (.ok entries) o :=
  loop_agrees h hq fwd inside fn state (seek_simulates h hq fwd k rfl) (by rw [hseek]; rfl) hit

end Scans

/-! ## 4. The refinement -/

/-- The abstract tree of an `olc_db`. -/
def abs (o : OlcDb sizes) : Option AbsTree := o.mem.root.bind (o.mem.abs o.next)

omit [StoredKey κ] in
theorem Stores.abs_eq (ho : o.Stores s) (h : s.tree.Inv K path) {fuel : Nat}
    {slot : Radix.Slot NodePtr UInt8} {p : NodePtr} (hread : s.tree.graph.read slot = some p) :
    o.mem.abs fuel p = s.tree.abs fuel p := by
  induction fuel generalizing slot p with
  | zero => rfl
  | succ fuel ih =>
    by_cases htype : p.type = .leaf
    · obtain ⟨k, v, hp, -⟩ := h.leaf_of_tag hread htype
      simp only [Tree.abs, hp, ho.deref hp]
    · obtain ⟨n, hp, -⟩ := h.inode_of_tag hread htype
      have hchild : ∀ b c, n.child b = some c → o.mem.abs fuel c = s.tree.abs fuel c :=
        fun b c hc => ih (by rw [Tree.graph_read_child hp, hc])
      have hsame : (fun b => do
            let c ← n.child b
            return (b, ← o.mem.abs fuel c)) = fun b => (do
            let c ← n.child b
            return (b, ← s.tree.abs fuel c) : Option (UInt8 × AbsTree)) := by
        funext b
        cases hb : n.child b with
        | none => rfl
        | some c =>
          show (o.mem.abs fuel c >>= _) = (s.tree.abs fuel c >>= _)
          rw [hchild b c hb]
      simp only [Tree.abs, hp, ho.deref hp, hsame]

/-- What a thread that has an `olc_db<std::uint64_t>` for itself finds there is what it finds in the
    `db`: the tree, the counters, and what iterators and scans show.  Every operation of an iterator
    ends with its first attempt. -/
structure Agrees (o : OlcDb sizes) (s : Db dbSizes) : Prop where
  abs : o.abs = s.abs
  nodeCounts : o.stats.nodeCounts = s.stats.nodeCounts
  growing : o.stats.growingInodeCounts = s.stats.growingInodeCounts
  shrinking : o.stats.shrinkingInodeCounts = s.stats.shrinkingInodeCounts
  splits : o.stats.keyPrefixSplits = s.stats.keyPrefixSplits
  walk : ∀ calls : List (IterCall U64Key), ∃ shown, Iterator.walk s calls .invalid = .ok shown ∧
    (OlcIterator.walk o.next calls .new).Yields o (.ok shown) o
  scan : ∀ {σ : Type} (fn : Visitor σ) (state : σ) (fwd : Bool), ∃ entries,
    Db.scan fn state s fwd = .ok entries ∧
      (scan o.next 1 (o.next + 1) fn state U64Key fwd).Yields o (.ok entries) o
  scanFrom : ∀ {σ : Type} (fn : Visitor σ) (state : σ) (fromKey : BitVec 64) (fwd : Bool),
    ∃ entries, Db.scanFrom fn state s (U64Key.make fromKey) fwd = .ok entries ∧
      (scanFrom o.next 1 (o.next + 1) fn state (U64Key.make fromKey) fwd).Yields o (.ok entries) o
  scanRange : ∀ {σ : Type} (fn : Visitor σ) (state : σ) (fromKey toKey : BitVec 64), ∃ entries,
    Db.scanRange fn state s (U64Key.make fromKey) (U64Key.make toKey)
        (Db.cmpU64 (U64Key.make fromKey) (U64Key.make toKey)) = .ok entries ∧
      (scanRange o.next 1 (o.next + 1) fn state (U64Key.make fromKey) (U64Key.make toKey)
        (Db.cmpU64 (U64Key.make fromKey) (U64Key.make toKey))).Yields o (.ok entries) o

theorem Mirrors.agrees (hm : o.Mirrors s) (h : s.Inv Db.u64Views path lost) : o.Agrees s := by
  have hseek : ∀ (k : U64Key) fwd, ∃ it m, Iterator.seek s k fwd = .ok (it, m) ∧
      it.Placed s.tree := by
    intro k fwd
    obtain ⟨it, m, hrun, hresult⟩ := seek_u64_spec h (bswap k.key) fwd
    rw [U64Key.make, bswap_bswap] at hrun
    exact ⟨it, m, hrun, SeekResult.placed hresult⟩
  have hq := hm.quiet
  refine ⟨?_, hm.nodeCounts, hm.growing, hm.shrinking, hm.splits, ?_, ?_, ?_, ?_⟩
  · rw [OlcDb.abs, Db.abs, hq.root_eq, hm.next]
    cases hroot : s.tree.root with
    | none => rfl
    | some root =>
      have hread : s.tree.graph.read .root = some root := hroot
      exact hm.toStores.abs_eq h.tree hread
  · intro calls
    rw [hm.next]
    exact walk_tracks h hq hseek calls (tracks_invalidate o .new) (.inl rfl)
  · intro σ fn state fwd
    rw [hm.next]
    exact scan_agrees h hq fwd fn state
  · intro σ fn state fromKey fwd
    rw [hm.next]
    obtain ⟨it, m, hrun, hit⟩ := hseek (U64Key.make fromKey) fwd
    obtain ⟨entries, hloop, hyields⟩ := seekScan_agrees h hq fwd (fun _ => true) fn state hrun hit
    refine ⟨entries, ?_, hyields⟩
    rw [Db.scanFrom, hrun]
    exact hloop
  · intro σ fn state fromKey toKey
    rw [hm.next]
    generalize Db.cmpU64 (U64Key.make fromKey) (U64Key.make toKey) = ret
    by_cases hret : ret = 0
    · refine ⟨[], by rw [Db.scanRange, if_pos hret]; rfl, ?_⟩
      rw [OlcDb.scanRange, if_pos hret]
      exact Prog.Yields.ret _ _
    · obtain ⟨it, m, hrun, hit⟩ := hseek (U64Key.make fromKey) (decide (ret < 0))
      obtain ⟨entries, hloop, hyields⟩ := seekScan_agrees h hq (decide (ret < 0))
        (Db.within (decide (ret < 0)) (ArtKey.getKeyView (U64Key.make toKey))) fn state hrun hit
      refine ⟨entries, ?_, ?_⟩
      · rw [Db.scanRange, if_neg hret]
        show (Iterator.seek s (U64Key.make fromKey) (decide (ret < 0)) >>= _) = _
        rw [hrun]
        exact hloop
      · rw [OlcDb.scanRange, if_neg hret]
        exact hyields

/-- With memory at hand a call ends as that of the mirrored `db` does. -/
theorem call_of_step {choices : Nat → Choice} (hmemory : ∀ i, (choices i).badAlloc = false)
    (hm : o.Mirrors s) (h : s.Inv Db.u64Views path lost) (me rounds : Nat) (c : Call (BitVec 64)) :
    ∃ o' path' lost', (call me (rounds + 1) U64Key.make c).exec choices o =
        some ((Db.step U64Key.make c s).1, o') ∧
      o'.Mirrors (Db.step U64Key.make c s).2 ∧
      (Db.step U64Key.make c s).2.Inv Db.u64Views path' lost' := by
  obtain ⟨r, o', hexec, hok, hfails⟩ := (call_ends (P := fun choice => choice.badAlloc = false) me
    rounds U64Key.make hm h Db.u64Views_prefixFree (Db.keyIn_u64 Db.view_mem_u64Views c)).exec choices
    hmemory
  cases r with
  | ok a =>
    obtain ⟨s', path', lost', hstep, hm', hinv⟩ := hok a rfl
    rw [hstep]
    exact ⟨o', path', lost', hexec, hm', hinv⟩
  | error e =>
    rcases hfails e rfl with ⟨-, -, -, choice, hchoice, hbad⟩ | ⟨rfl, hstep, -⟩ | ⟨rfl, hstep⟩
    · rw [hchoice] at hbad
      cases hbad
    · rw [hstep]
      exact ⟨o', path, lost, hexec, hm, h⟩
    · have hcompletes := h.step_u64_completes c
      rw [hstep] at hcompletes
      cases hcompletes

theorem runCalls_of_run {choices : Nat → Choice} (hmemory : ∀ i, (choices i).badAlloc = false)
    (hm : o.Mirrors s) (h : s.Inv Db.u64Views path lost) (me : Nat)
    (calls : List (Call (BitVec 64))) :
    ∃ o' path' lost', runCalls me choices U64Key.make calls o =
        some ((Db.run U64Key.make calls s).1, o') ∧
      o'.Mirrors (Db.run U64Key.make calls s).2 ∧
      (Db.run U64Key.make calls s).2.Inv Db.u64Views path' lost' := by
  induction calls generalizing o s path lost with
  | nil => exact ⟨o, path, lost, rfl, hm, h⟩
  | cons c cs ih =>
    obtain ⟨o₁, path₁, lost₁, hexec, hm₁, h₁⟩ := call_of_step hmemory hm h me 0 c
    obtain ⟨o', path', lost', hrest, hm', h'⟩ := ih hm₁ h₁
    refine ⟨o', path', lost', ?_, hm', h'⟩
    rw [runCalls, hexec]
    dsimp only
    rw [hrest]
    rfl

end OlcDb

/-- Calls of one thread on an `olc_db<std::uint64_t>` return what the same calls on a `db` return, and
    leave what they leave.  Each of them makes a single attempt. -/
theorem OlcDb.refines_db (me : Nat) {choices : Nat → Choice}
    (hmemory : ∀ i, (choices i).badAlloc = false) (calls : List (Call (BitVec 64))) :
    ∃ o, OlcDb.runCalls me choices U64Key.make calls (.empty sizes) =
        some ((Db.run U64Key.make calls (Db.empty dbSizes)).1, o) ∧
      o.Agrees (Db.run U64Key.make calls (Db.empty dbSizes)).2 := by
  obtain ⟨o, path, lost, hrun, hm, h⟩ := runCalls_of_run hmemory empty_mirrors
    (Db.Inv.empty fun _ => []) me calls
  exact ⟨o, hrun, hm.agrees h⟩

/-- Two keys, of which one is removed. -/
theorem OlcDb.refines_db_removed :
    ∃ o, OlcDb.runCalls 0 (fun _ => {}) U64Key.make
        [.insert 1 [7], .insert 258 [], .remove 1, .get 258] (.empty .olcDb) =
        some ([.ok (.bool true), .ok (.bool true), .ok (.bool true), .ok (.value (some []))], o) ∧
      o.Agrees (Db.run U64Key.make [.insert 1 [7], .insert 258 [], .remove 1, .get 258]
        (Db.empty .db)).2 := by
  have hresults : (Db.run U64Key.make [.insert 1 [7], .insert 258 [], .remove 1, .get 258]
      (Db.empty .db)).1 =
      [.ok (.bool true), .ok (.bool true), .ok (.bool true), .ok (.value (some []))] := by
    decide +kernel
  rw [← hresults]
  exact OlcDb.refines_db 0 (fun _ => rfl) _

/-! ## 5. Calls, iterators and scans in any order -/

/-- What a thread does with a database: a call, the calls of an iterator that it uses until the next
    update, or a scan. -/
inductive Use (σ : Type) where
  | call (c : Call (BitVec 64))
  | iterate (calls : List (IterCall U64Key))
  | scan (fn : Visitor σ) (state : σ) (fwd : Bool)
  | scanFrom (fn : Visitor σ) (state : σ) (fromKey : BitVec 64) (fwd : Bool)
  | scanRange (fn : Visitor σ) (state : σ) (fromKey toKey : BitVec 64)

/-- What it finds: the result of a call, those of the calls of an iterator with the entries that it is
    at, or the entries visited. -/
inductive UseResult where
  | returned (r : Except Fault Output)
  | walked (r : Except Fault (List (OlcDb.Response × Option Entry)))
  | visited (r : Except Fault (List Entry))
deriving DecidableEq

section Uses

variable {σ : Type} {s : Db dbSizes} {o : OlcDb sizes} {K : Set (List UInt8)}
  {path : NodePtr → List UInt8} {lost : NodeType → Nat}

def Db.use (s : Db dbSizes) : Use σ → UseResult × Db dbSizes
  | .call c => (.returned (Db.step U64Key.make c s).1, (Db.step U64Key.make c s).2)
  | .iterate calls => (.walked (Iterator.walk s calls .invalid), s)
  | .scan fn state fwd => (.visited (Db.scan fn state s fwd), s)
  | .scanFrom fn state fromKey fwd =>
    (.visited (Db.scanFrom fn state s (U64Key.make fromKey) fwd), s)
  | .scanRange fn state fromKey toKey =>
    (.visited (Db.scanRange fn state s (U64Key.make fromKey) (U64Key.make toKey)
      (Db.cmpU64 (U64Key.make fromKey) (U64Key.make toKey))), s)

def Db.uses : List (Use σ) → Db dbSizes → List UseResult × Db dbSizes
  | [], s => ([], s)
  | u :: us, s => ((s.use u).1 :: (Db.uses us (s.use u).2).1, (Db.uses us (s.use u).2).2)

/-- The same with an `olc_db` that the thread has for itself, with one attempt for each operation;
    `none` if it comes to wait. -/
def OlcDb.use (me : Nat) (choices : Nat → Choice) (o : OlcDb sizes) :
    Use σ → Option (UseResult × OlcDb sizes)
  | .call c => ((OlcDb.call me 1 U64Key.make c).exec choices o).map fun r => (.returned r.1, r.2)
  | .iterate calls =>
    ((OlcIterator.walk o.next calls .new).exec choices o).map fun r => (.walked r.1, r.2)
  | .scan fn state fwd =>
    ((OlcDb.scan o.next 1 (o.next + 1) fn state U64Key fwd).exec choices o).map fun r =>
      (.visited r.1, r.2)
  | .scanFrom fn state fromKey fwd =>
    ((OlcDb.scanFrom o.next 1 (o.next + 1) fn state (U64Key.make fromKey) fwd).exec choices o).map
      fun r => (.visited r.1, r.2)
  | .scanRange fn state fromKey toKey =>
    ((OlcDb.scanRange o.next 1 (o.next + 1) fn state (U64Key.make fromKey) (U64Key.make toKey)
      (Db.cmpU64 (U64Key.make fromKey) (U64Key.make toKey))).exec choices o).map fun r =>
        (.visited r.1, r.2)

def OlcDb.uses (me : Nat) (choices : Nat → Choice) :
    List (Use σ) → OlcDb sizes → Option (List UseResult × OlcDb sizes)
  | [], o => some ([], o)
  | u :: us, o =>
    match OlcDb.use me choices o u with
    | none => none
    | some (x, o') => (OlcDb.uses me choices us o').map fun r => (x :: r.1, r.2)

theorem OlcDb.use_mirrors {choices : Nat → Choice} (hmemory : ∀ i, (choices i).badAlloc = false)
    (hm : o.Mirrors s) (h : s.Inv Db.u64Views path lost) (me : Nat) (u : Use σ) :
    ∃ o' path' lost', OlcDb.use me choices o u = some ((s.use u).1, o') ∧ o'.Mirrors (s.use u).2 ∧
      (s.use u).2.Inv Db.u64Views path' lost' := by
  have hagrees := hm.agrees h
  cases u with
  | call c =>
    obtain ⟨o', path', lost', hexec, hm', h'⟩ := OlcDb.call_of_step hmemory hm h me 0 c
    refine ⟨o', path', lost', ?_, hm', h'⟩
    rw [OlcDb.use, hexec]
    rfl
  | iterate calls =>
    obtain ⟨shown, hwalk, hyields⟩ := hagrees.walk calls
    refine ⟨o, path, lost, ?_, hm, h⟩
    rw [OlcDb.use, hyields choices, Db.use, hwalk]
    rfl
  | scan fn state fwd =>
    obtain ⟨entries, hscan, hyields⟩ := hagrees.scan fn state fwd
    refine ⟨o, path, lost, ?_, hm, h⟩
    rw [OlcDb.use, hyields choices, Db.use, hscan]
    rfl
  | scanFrom fn state fromKey fwd =>
    obtain ⟨entries, hscan, hyields⟩ := hagrees.scanFrom fn state fromKey fwd
    refine ⟨o, path, lost, ?_, hm, h⟩
    rw [OlcDb.use, hyields choices, Db.use, hscan]
    rfl
  | scanRange fn state fromKey toKey =>
    obtain ⟨entries, hscan, hyields⟩ := hagrees.scanRange fn state fromKey toKey
    refine ⟨o, path, lost, ?_, hm, h⟩
    rw [OlcDb.use, hyields choices, Db.use, hscan]
    rfl

theorem OlcDb.uses_mirrors {choices : Nat → Choice} (hmemory : ∀ i, (choices i).badAlloc = false)
    (hm : o.Mirrors s) (h : s.Inv Db.u64Views path lost) (me : Nat) (us : List (Use σ)) :
    ∃ o' path' lost', OlcDb.uses me choices us o = some ((Db.uses us s).1, o') ∧
      o'.Mirrors (Db.uses us s).2 ∧ (Db.uses us s).2.Inv Db.u64Views path' lost' := by
  induction us generalizing o s path lost with
  | nil => exact ⟨o, path, lost, rfl, hm, h⟩
  | cons u us ih =>
    obtain ⟨o₁, path₁, lost₁, huse, hm₁, h₁⟩ := OlcDb.use_mirrors hmemory hm h me u
    obtain ⟨o', path', lost', huses, hm', h'⟩ := ih hm₁ h₁
    refine ⟨o', path', lost', ?_, hm', h'⟩
    rw [OlcDb.uses, huse]
    dsimp only
    rw [huses]
    rfl

end Uses

/-- Whatever one thread does with an `olc_db<std::uint64_t>`, calls, iterators and scans in any order,
    it finds what it finds with a `db`, always with the first attempt, and the two end with the same
    abstract tree and the same counters. -/
theorem OlcDb.uses_refine_db {σ : Type} (me : Nat) {choices : Nat → Choice}
    (hmemory : ∀ i, (choices i).badAlloc = false) (us : List (Use σ)) :
    ∃ o, OlcDb.uses me choices us (.empty sizes) = some ((Db.uses us (Db.empty dbSizes)).1, o) ∧
      o.abs = (Db.uses us (Db.empty dbSizes)).2.abs ∧
      o.stats.nodeCounts = (Db.uses us (Db.empty dbSizes)).2.stats.nodeCounts ∧
      o.stats.growingInodeCounts = (Db.uses us (Db.empty dbSizes)).2.stats.growingInodeCounts ∧
      o.stats.shrinkingInodeCounts = (Db.uses us (Db.empty dbSizes)).2.stats.shrinkingInodeCounts ∧
      o.stats.keyPrefixSplits = (Db.uses us (Db.empty dbSizes)).2.stats.keyPrefixSplits := by
  have hempty : (OlcDb.empty sizes).Mirrors (Db.empty dbSizes) := empty_mirrors
  obtain ⟨o, path, lost, huses, hm, h⟩ := uses_mirrors hmemory hempty (Db.Inv.empty fun _ => []) me us
  have hagrees := hm.agrees h
  exact ⟨o, huses, hagrees.abs, hagrees.nodeCounts, hagrees.growing, hagrees.shrinking,
    hagrees.splits⟩

/-- Two keys, an iterator on them, the removal of one, and a scan. -/
def Use.some : List (Use Nat) :=
  [.call (.insert 1 [7]), .call (.insert 2 []), .iterate [.move .first, .move .next],
    .call (.remove 1), .scan (fun n _ => (false, n + 1)) 0 true]

theorem OlcDb.uses_refine_db_some : ∃ o : OlcDb .olcDb,
    OlcDb.uses 0 (fun _ => {}) Use.some (.empty .olcDb) =
      .some ([.returned (.ok (.bool true)), .returned (.ok (.bool true)),
        .walked (.ok [(.moved, .some ([0, 0, 0, 0, 0, 0, 0, 1], [7])),
          (.moved, .some ([0, 0, 0, 0, 0, 0, 0, 2], []))]), .returned (.ok (.bool true)),
        .visited (.ok [([0, 0, 0, 0, 0, 0, 0, 2], [])])], o) ∧
    o.stats.nodeCounts .i4 = 0 := by
  obtain ⟨o, huses, -, hcounts, -⟩ : ∃ o : OlcDb .olcDb,
      OlcDb.uses 0 (fun _ => {}) Use.some (.empty .olcDb) =
        .some ((Db.uses Use.some (Db.empty .db)).1, o) ∧
      o.abs = (Db.uses Use.some (Db.empty .db)).2.abs ∧
      o.stats.nodeCounts = (Db.uses Use.some (Db.empty .db)).2.stats.nodeCounts ∧ _ :=
    OlcDb.uses_refine_db 0 (fun _ => rfl) Use.some
  have hfound : (Db.uses Use.some (Db.empty .db)).1 =
      [.returned (.ok (.bool true)), .returned (.ok (.bool true)),
        .walked (.ok [(.moved, .some ([0, 0, 0, 0, 0, 0, 0, 1], [7])),
          (.moved, .some ([0, 0, 0, 0, 0, 0, 0, 2], []))]), .returned (.ok (.bool true)),
        .visited (.ok [([0, 0, 0, 0, 0, 0, 0, 2], [])])] := by
    decide +kernel
  rw [hfound] at huses
  refine ⟨o, huses, ?_⟩
  rw [hcounts]
  decide +kernel

end Unodb
