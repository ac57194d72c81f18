import Unodb.Db.Clear

/-!
# `db` as a map

Runs of calls on a `db` against runs of the same calls on a map from keys to values.
-/

open Arrays

namespace Unodb

/-- A call of the map interface of `db`. -/
inductive Call (E : Type) where
  | insert (k : E) (v : List UInt8)
  | remove (k : E)
  | get (k : E)
  | empty
  | clear

/-- What a call returns. -/
inductive Output where
  | bool (b : Bool)
  | value (v : Option (List UInt8))
  | unit
deriving DecidableEq, Repr

/-- The key argument of a call is in a set. -/
def Call.KeyIn {E : Type} (K : Set E) : Call E → Prop
  | .insert k _ | .remove k | .get k => k ∈ K
  | .empty | .clear => True

/-! ## 1. Calls -/

namespace Db

variable {κ E : Type}

section Code

variable [ArtKey κ] (encode : E → κ)

/-- `insert`, `remove`, `get`, `empty` and `clear`; `encode` is the constructor of the internal
    key. -/
def call : Call E → DbM sizes Output
  | .insert k v => do return .bool (← insertInternal (encode k) v)
  | .remove k => do return .bool (← removeInternal (encode k))
  | .get k => do return .value (← getInternal (← get) (encode k))
  | .empty => do return .bool (isEmpty (← get))
  | .clear => do
    clear
    return .unit

/-- One call: what it returns or throws, and the state after it. -/
def step (c : Call E) (s : Db sizes) : Except Fault Output × Db sizes :=
  match call encode c s with
  | .ok r s' => (.ok r, s')
  | .error fault s' => (.error fault, s')

/-- A sequence of calls. -/
def run : List (Call E) → Db sizes → List (Except Fault Output) × Db sizes
  | [], s => ([], s)
  | c :: cs, s =>
    let (r, s') := step encode c s
    let (rs, s'') := run cs s'
    (r :: rs, s'')

end Code

end Db

/-- The message of the exception with which a call refuses its key or its value. -/
def Call.refusal {κ E : Type} [ArtKey κ] (encode : E → κ) : Call E → Option String
  | .insert k v => Db.leafRefusal (encode k) v
  | .remove _ | .get _ | .empty | .clear => none

/-! ## 2. The reference map -/

/-- A map from keys to values. -/
abbrev RefMap (E : Type) := E → Option (List UInt8)

namespace RefMap

variable {E : Type} [DecidableEq E] (refusal : E → List UInt8 → Option String)

open Classical in
/-- A call on the map.  An insertion of a new key may be refused with an exception. -/
noncomputable def step : Call E → RefMap E → Except Fault Output × RefMap E
  | .insert k v, m =>
    if (m k).isSome then (.ok (.bool false), m)
    else match refusal k v with
      | some what => (.error (.lengthError what), m)
      | none => (.ok (.bool true), Function.update m k (some v))
  | .remove k, m => (.ok (.bool (m k).isSome), Function.update m k none)
  | .get k, m => (.ok (.value (m k)), m)
  | .empty, m => (.ok (.bool (decide (∀ k, m k = none))), m)
  | .clear, _ => (.ok .unit, fun _ => none)

/-- A sequence of calls on the map. -/
noncomputable def run : List (Call E) → RefMap E → List (Except Fault Output) × RefMap E
  | [], m => ([], m)
  | c :: cs, m =>
    let (r, m') := step refusal c m
    let (rs, m'') := run cs m'
    (r :: rs, m'')

end RefMap

namespace Db

variable {κ E : Type} [LawfulArtKey κ] {K : Set (List UInt8)} {path : NodePtr → List UInt8}
  {lost : NodeType → Nat} {s : Db sizes} {slot : Radix.Slot NodePtr UInt8} {sl : Slot} {p : NodePtr}
  {k : κ} {depth : Nat} {rem : κ}

/-! ## 3. Lookup -/

theorem getLoop_spec (h : s.tree.Inv K path)
    (hstays : s.tree.Stays path (ArtKey.getKeyView k)) {fuel : Nat}
    (hat : s.tree.At path (ArtKey.getKeyView k) sl slot depth rem)
    (hread : s.tree.graph.read slot = some p)
    (hfuel : (ArtKey.getKeyView k).length < fuel + depth) :
    ∃ r, getLoop s.tree k fuel p rem = .ok r ∧
      ∀ v, r = some v ↔ s.tree.Binds (ArtKey.getKeyView k) v := by
  induction fuel generalizing sl slot depth rem p with
  | zero =>
    have := hat.depth_le
    omega
  | succ fuel ih =>
    by_cases htype : p.type = .leaf
    · obtain ⟨k', v', hp, -⟩ := h.leaf_of_tag hread htype
      simp only [getLoop, if_pos htype, Tree.readLeaf_ok hp]
      by_cases hkk : ArtKey.getKeyView k = k'
      · subst hkk
        have hbind : s.tree.Binds (ArtKey.getKeyView k) v' :=
          ⟨p.addr, (Tree.deref_eq_some_iff.mp hp).1⟩
        refine ⟨some v', ?_, fun v => ?_⟩
        · simp only [bind, Except.bind, if_pos ((ArtKey.cmp_eq_zero_iff k _).mpr rfl)]
          rfl
        · rw [Option.some_inj]
          exact ⟨fun heq => heq ▸ hbind, fun hb => h.binds_unique hbind hb⟩
      · refine ⟨none, ?_, fun v => iff_of_false (by simp) ?_⟩
        · simp only [bind, Except.bind, if_neg (mt (ArtKey.cmp_eq_zero_iff k _).mp hkk)]
          rfl
        · exact h.unbound_of_leaf hread hat.start hp hkk v
    · obtain ⟨n, hp, hwf, -⟩ := h.inode_of_tag hread htype
      simp only [getLoop, if_neg htype, Tree.readInode_ok hp, bind, Except.bind]
      by_cases hlt : n.keyPrefix.getSharedLength (ArtKey.getU64 rem) < n.keyPrefix.length
      · refine ⟨none, by rw [if_pos hlt]; rfl, fun v => iff_of_false (by simp) ?_⟩
        exact h.unbound_of_prefix hread hat.start hp
          (hat.not_path_isPrefix h hread hp hstays hlt) v
      · obtain ⟨hshared, rem1, b, rem2, hrem1, hb, hrem2, hpath, hbyte, hlen, hdrop⟩ :=
          hat.pass h hread hp hstays hlt
        rw [if_neg hlt]
        simp only [hrem1, hb]
        cases hfind : n.findChild b with
        | none =>
          refine ⟨none, rfl, fun v => iff_of_false (by simp) ?_⟩
          exact h.unbound_of_gap hread hat.start hp hpath ((hwf.findChild_eq_none_iff b).mp hfind) v
        | some r =>
          obtain ⟨ci, i⟩ := r
          obtain ⟨q, hq, -⟩ := hwf.findChild_eq_some hfind
          have hreadq : s.tree.graph.read (.child p b) = some q := by
            rw [Tree.graph_read_child hp, hq]
          have hload : s.tree.load (.child p.addr i) = some q := by
            rw [h.load_eq (.child hp hfind), hreadq]
          simp only [Tree.readSlot_ok hload, hrem2]
          exact ih (Tree.At.child hp hfind hpath hlen hdrop) hreadq (by omega)

theorem getInternal_spec (h : s.tree.Inv K path)
    (hstays : s.tree.Stays path (ArtKey.getKeyView k)) :
    ∃ r, getInternal s k = .ok r ∧ ∀ v, r = some v ↔ s.tree.Binds (ArtKey.getKeyView k) v := by
  cases hroot : s.tree.root with
  | none =>
    refine ⟨none, by rw [getInternal, hroot], fun v => iff_of_false (by simp) fun hb => ?_⟩
    obtain ⟨x, hx⟩ := Tree.binds_iff.mpr hb
    rw [h.graph.node_eq_none hroot] at hx
    cases hx
  | some root =>
    rw [getInternal, hroot]
    refine getLoop_spec h hstays (Tree.At.root s.tree path k) hroot ?_
    rw [LawfulArtKey.size_eq]
    omega

/-- A tree is empty exactly when it stores nothing. -/
theorem isEmpty_iff (h : s.tree.Inv K path) : s.isEmpty ↔ ∀ k v, ¬ s.tree.Binds k v := by
  rw [isEmpty, Option.isNone_iff_eq_none]
  constructor
  · intro hroot k v hb
    obtain ⟨x, hx⟩ := Tree.binds_iff.mpr hb
    rw [h.graph.node_eq_none hroot] at hx
    cases hx
  · intro hnone
    by_contra hroot
    obtain ⟨root, hroot⟩ := Option.ne_none_iff_exists'.mp hroot
    obtain ⟨l, k, v, hl, -⟩ := h.graph.exists_leaf (show s.tree.graph.read .root = _ from hroot)
    exact hnone k v (Tree.binds_iff.mp ⟨l, hl⟩)

/-! ## 4. Simulation -/

section Simulation

variable [DecidableEq E] {encode : E → κ} {m : RefMap E}

/-- The byte string of an external key. -/
def view (encode : E → κ) (k : E) : List UInt8 := ArtKey.getKeyView (encode k)

/-- The keys a reference map stores, as byte strings. -/
def viewKeys (encode : E → κ) (m : RefMap E) : Set (List UInt8) :=
  {x | ∃ k, (m k).isSome ∧ view encode k = x}

/-- A `db` stores the bindings of a map. -/
structure Represents (encode : E → κ) (s : Db sizes) (m : RefMap E) : Prop where
  binds_iff : ∀ k v, s.tree.Binds (view encode k) v ↔ m k = some v
  onto : ∀ {x v}, s.tree.Binds x v → ∃ k, view encode k = x

omit [DecidableEq E] in
theorem Represents.keys_eq (hrep : Represents encode s m) : s.tree.Keys = viewKeys encode m := by
  ext x
  constructor
  · rintro ⟨v, hv⟩
    obtain ⟨k, rfl⟩ := hrep.onto hv
    exact ⟨k, by rw [(hrep.binds_iff k v).mp hv]; rfl, rfl⟩
  · rintro ⟨k, hk, rfl⟩
    obtain ⟨v, hv⟩ := Option.isSome_iff_exists.mp hk
    exact ⟨v, (hrep.binds_iff k v).mpr hv⟩

variable (hinj : Function.Injective (view encode))
include hinj

theorem Represents.adds (hrep : Represents encode s m) {s' : Db sizes} {k : E} {v : List UInt8}
    (hadds : s.tree.Adds s'.tree (view encode k) v) (hk : m k = none) :
    Represents encode s' (Function.update m k (some v)) := by
  refine ⟨?_, ?_⟩
  · intro k' v'
    rw [hadds, Function.update_apply, hrep.binds_iff]
    by_cases hkk : k' = k
    · subst hkk
      simp [hk, eq_comm]
    · rw [if_neg hkk]
      constructor
      · rintro (⟨heq, -⟩ | hb)
        · exact absurd (hinj heq) hkk
        · exact hb
      · exact .inr
  · intro x v' hb
    rcases (hadds x v').mp hb with ⟨rfl, -⟩ | hb
    · exact ⟨k, rfl⟩
    · exact hrep.onto hb

theorem Represents.drops (hrep : Represents encode s m) {s' : Db sizes} {k : E}
    (hdrops : s.tree.Drops s'.tree (view encode k)) :
    Represents encode s' (Function.update m k none) := by
  refine ⟨?_, ?_⟩
  · intro k' v'
    rw [hdrops, Function.update_apply, hrep.binds_iff]
    by_cases hkk : k' = k
    · subst hkk
      simp
    · rw [if_neg hkk]
      exact ⟨And.right, fun hb => ⟨fun heq => hkk (hinj heq), hb⟩⟩
  · intro x v' hb
    exact hrep.onto ((hdrops x v').mp hb).2

omit hinj in
theorem viewKeys_insert (m : RefMap E) (k : E) (v : List UInt8) :
    viewKeys encode (Function.update m k (some v)) = insert (view encode k) (viewKeys encode m) := by
  ext x
  simp only [viewKeys, Set.mem_ofPred_eq, Set.mem_insert_iff, Function.update_apply]
  constructor
  · rintro ⟨k', hk', rfl⟩
    by_cases hkk : k' = k
    · exact .inl (by rw [hkk])
    · rw [if_neg hkk] at hk'
      exact .inr ⟨k', hk', rfl⟩
  · rintro (rfl | ⟨k', hk', rfl⟩)
    · exact ⟨k, by simp, rfl⟩
    · refine ⟨k', ?_, rfl⟩
      by_cases hkk : k' = k
      · simp [hkk]
      · rw [if_neg hkk]
        exact hk'

theorem viewKeys_erase (m : RefMap E) (k : E) :
    viewKeys encode (Function.update m k none) = viewKeys encode m \ {view encode k} := by
  ext x
  simp only [viewKeys, Set.mem_ofPred_eq, Set.mem_sdiff, Set.mem_singleton_iff,
    Function.update_apply]
  constructor
  · rintro ⟨k', hk', rfl⟩
    by_cases hkk : k' = k
    · rw [if_pos hkk] at hk'
      cases hk'
    · rw [if_neg hkk] at hk'
      exact ⟨⟨k', hk', rfl⟩, fun heq => hkk (hinj heq)⟩
  · rintro ⟨⟨k', hk', rfl⟩, hne⟩
    have hkk : k' ≠ k := fun heq => hne (by rw [heq])
    exact ⟨k', by rw [if_neg hkk]; exact hk', rfl⟩

omit [DecidableEq E] hinj in
theorem Represents.unbound_iff (hrep : Represents encode s m) (k : E) :
    (∀ v, ¬ s.tree.Binds (view encode k) v) ↔ m k = none := by
  simp only [hrep.binds_iff, Option.eq_none_iff_forall_ne_some, ne_eq]

/-- A call of `db` and a call of the map agree: the same result, and related states after it. -/
structure Agrees (encode : E → κ) (K : Set (List UInt8)) (out : Except Fault Output × Db sizes)
    (ref : Except Fault Output × RefMap E) : Prop where
  result : out.1 = ref.1
  inv : ∃ path lost, out.2.Inv K path lost
  represents : Represents encode out.2 ref.2

variable (h : s.Inv K path lost) (hfree : Radix.PrefixFree K) (hrep : Represents encode s m)
include h hfree hrep

theorem agrees_insert {k : E} {v : List UInt8} (hk : view encode k ∈ K)
    (hspaced : Radix.Spaced 7
      (viewKeys encode (RefMap.step (fun k v => leafRefusal (encode k) v) (.insert k v) m).2)) :
    Agrees encode K (step encode (.insert k v) s)
      (RefMap.step (fun k v => leafRefusal (encode k) v) (.insert k v) m) := by
  have hresult : InsertResult K lost s (encode k) v (insertInternal (encode k) v s) := by
    refine insertInternal_spec h hfree hk fun hfits => h.tree.partsSoon hfree hk ?_
    change Radix.Spaced 7 (insert (view encode k) s.tree.Keys)
    rw [hrep.keys_eq]
    simp only [RefMap.step, hfits] at hspaced
    split at hspaced
    case isTrue hsome =>
      -- A key that is there leaves the key set as it is.
      rwa [Set.insert_eq_of_mem (show view encode k ∈ viewKeys encode m from ⟨k, hsome, rfl⟩)]
    case isFalse => rwa [viewKeys_insert] at hspaced
  simp only [step, call, RefMap.step]
  generalize hrun : insertInternal (encode k) v s = result at hresult
  cases hresult with
  | «exists» hb =>
    rw [DbM.bind_ok hrun, if_pos (by rw [(hrep.binds_iff k _).mp hb]; rfl)]
    exact ⟨rfl, ⟨path, lost, h⟩, hrep⟩
  | refused hunbound hfits =>
    rw [DbM.bind_error hrun, if_neg (by simp [(hrep.unbound_iff k).mp hunbound]), hfits]
    exact ⟨rfl, ⟨path, lost, h⟩, hrep⟩
  | @added s' path' hunbound hfits hinv hadds =>
    have hnone := (hrep.unbound_iff k).mp hunbound
    rw [DbM.bind_ok hrun, if_neg (by simp [hnone]), hfits]
    exact ⟨rfl, ⟨path', lost, hinv⟩, hrep.adds hinj hadds hnone⟩

theorem agrees_remove {k : E} (hk : view encode k ∈ K)
    (hspaced : Radix.Spaced 7 (viewKeys encode (Function.update m k none))) :
    Agrees encode K (step encode (.remove k) s)
      (RefMap.step (fun k v => leafRefusal (encode k) v) (.remove k) m) := by
  have hresult : RemoveResult K lost s (encode k) (removeInternal (encode k) s) := by
    refine removeInternal_spec h (h.tree.stays hfree hk) (h.tree.joinsFit ?_)
    rw [hrep.keys_eq]
    rwa [viewKeys_erase hinj] at hspaced
  simp only [step, call, RefMap.step]
  generalize hrun : removeInternal (encode k) s = result at hresult
  cases hresult with
  | absent hunbound =>
    have hnone := (hrep.unbound_iff k).mp hunbound
    rw [DbM.bind_ok hrun, hnone]
    refine ⟨rfl, ⟨path, lost, h⟩, ?_⟩
    rwa [show Function.update m k none = m from hnone ▸ Function.update_eq_self k m]
  | @removed s' path' v hb hinv hdrops =>
    rw [DbM.bind_ok hrun, (hrep.binds_iff k v).mp hb]
    exact ⟨rfl, ⟨path', lost, hinv⟩, hrep.drops hinj hdrops⟩

omit hinj in
theorem agrees_get {k : E} (hk : view encode k ∈ K) :
    Agrees encode K (step encode (.get k) s)
      (RefMap.step (fun k v => leafRefusal (encode k) v) (.get k) m) := by
  obtain ⟨r, hr, hbinds⟩ := getInternal_spec h.tree (h.tree.stays hfree hk)
  have hrm : r = m k := by
    refine Option.ext fun v => ?_
    rw [hbinds, ← hrep.binds_iff]
    rfl
  simp only [step, call, RefMap.step]
  rw [DbM.bind_get, DbM.bind_lift hr, hrm]
  exact ⟨rfl, ⟨path, lost, h⟩, hrep⟩

omit hinj hfree in
theorem agrees_empty :
    Agrees encode K (step encode .empty s)
      (RefMap.step (fun k v => leafRefusal (encode k) v) .empty m) := by
  have hempty : isEmpty s = true ↔ ∀ k, m k = none := by
    rw [isEmpty_iff h.tree]
    constructor
    · exact fun hnone k => (hrep.unbound_iff k).mp (hnone _)
    · intro hnone x v hb
      obtain ⟨k, rfl⟩ := hrep.onto hb
      exact (hrep.unbound_iff k).mpr (hnone k) v hb
  refine ⟨?_, ⟨path, lost, h⟩, hrep⟩
  change Except.ok (Output.bool (isEmpty s)) = _
  simp only [RefMap.step, ← hempty, Bool.decide_eq_true]

omit hinj hfree hrep in
theorem agrees_clear :
    Agrees encode K (step encode .clear s)
      (RefMap.step (fun k v => leafRefusal (encode k) v) .clear m) := by
  obtain ⟨s', hclear, hnone, hinv⟩ := h.clear_spec
  simp only [step, call, RefMap.step]
  rw [DbM.bind_ok hclear]
  refine ⟨rfl, ⟨path, _, hinv⟩, ⟨fun k v => ?_, fun hb => absurd hb (hnone _ _)⟩⟩
  exact iff_of_false (hnone _ _) (by simp)

/-- One call of `db` and of the map it represents. -/
theorem agrees_step (c : Call E) (hc : c.KeyIn {k | view encode k ∈ K})
    (hspaced : Radix.Spaced 7
      (viewKeys encode (RefMap.step (fun k v => leafRefusal (encode k) v) c m).2)) :
    Agrees encode K (step encode c s) (RefMap.step (fun k v => leafRefusal (encode k) v) c m) := by
  cases c with
  | insert k v => exact agrees_insert hinj h hfree hrep hc hspaced
  | remove k => exact agrees_remove hinj h hfree hrep hc hspaced
  | get k => exact agrees_get h hfree hrep hc
  | empty => exact agrees_empty h hrep
  | clear => exact agrees_clear h

end Simulation

end Db

end Unodb
