import Unodb.Db.Map

/-!
# Runs of calls

A `db` that starts empty answers every sequence of calls as a map does: with 64-bit keys always,
with byte-string keys as long as the stored keys branch often enough for the seven bytes of a key
prefix.
-/

open Arrays

namespace Unodb

/-! ## 1. Conditions along a run of the map -/

namespace RefMap

variable {E : Type} [DecidableEq E] {refusal refusal' : E → List UInt8 → Option String}

/-- Every call of a sequence meets a condition in the map it finds. -/
def Along (refusal : E → List UInt8 → Option String) (ok : Call E → RefMap E → Prop) :
    List (Call E) → RefMap E → Prop
  | [], _ => True
  | c :: cs, m => ok c m ∧ Along refusal ok cs (step refusal c m).2

theorem Along.mono {ok ok' : Call E → RefMap E → Prop} {calls : List (Call E)} {m : RefMap E}
    (h : Along refusal ok calls m) (hok : ∀ c ∈ calls, ∀ m, ok c m → ok' c m) :
    Along refusal ok' calls m := by
  induction calls generalizing m with
  | nil => trivial
  | cons c cs ih =>
    exact ⟨hok c List.mem_cons_self m h.1,
      ih h.2 fun c' hc' => hok c' (List.mem_cons_of_mem c hc')⟩

theorem run_cons (refusal : E → List UInt8 → Option String) (c : Call E) (cs : List (Call E))
    (m : RefMap E) :
    run refusal (c :: cs) m = ((step refusal c m).1 :: (run refusal cs (step refusal c m).2).1,
      (run refusal cs (step refusal c m).2).2) := rfl

/-- Maps that refuse the same insertions of a run behave the same in it. -/
theorem run_congr {calls : List (Call E)} {m : RefMap E}
    (h : Along refusal (fun c m => step refusal c m = step refusal' c m) calls m) :
    run refusal calls m = run refusal' calls m ∧
      ∀ ok, Along refusal ok calls m ↔ Along refusal' ok calls m := by
  induction calls generalizing m with
  | nil => exact ⟨rfl, fun _ => Iff.rfl⟩
  | cons c cs ih =>
    obtain ⟨hstep, hrest⟩ := h
    rw [hstep] at hrest
    obtain ⟨hrun, halong⟩ := ih hrest
    refine ⟨?_, fun ok => ?_⟩
    · rw [run_cons, run_cons, hstep, hrun]
    · simp only [Along, hstep, halong]

/-- A call stores no key but the one it inserts. -/
theorem isSome_of_step {c : Call E} {m : RefMap E} {k : E}
    (h : ((step refusal c m).2 k).isSome) : (m k).isSome ∨ ∃ v, c = .insert k v := by
  cases c with
  | insert k' v =>
    simp only [step] at h
    split at h
    · exact .inl h
    · split at h
      · exact .inl h
      · simp only [Function.update_apply] at h
        split at h
        case isTrue heq => exact .inr ⟨v, by rw [heq]⟩
        case isFalse => exact .inl h
  | remove k' =>
    simp only [step, Function.update_apply] at h
    split at h
    · cases h
    · exact .inl h
  | get | empty => exact .inl h
  | clear => cases h

end RefMap

/-! ## 2. The run theorem -/

namespace Db

variable {κ E : Type} [LawfulArtKey κ] {K : Set (List UInt8)} {path : NodePtr → List UInt8}
  {lost : NodeType → Nat} {s : Db sizes} [DecidableEq E] {encode : E → κ} {m : RefMap E}

omit [DecidableEq E] in
theorem run_cons (encode : E → κ) (c : Call E) (cs : List (Call E)) (s : Db sizes) :
    run encode (c :: cs) s = ((step encode c s).1 :: (run encode cs (step encode c s).2).1,
      (run encode cs (step encode c s).2).2) := rfl

omit [DecidableEq E] in
theorem represents_empty : Represents encode (Db.empty sizes) fun _ => none :=
  ⟨fun _ _ => iff_of_false (by rintro ⟨x, hx⟩; cases hx) (by simp),
    by rintro x v ⟨y, hy⟩; cases hy⟩

/-- The keys that a call leaves in the map branch often enough for the key prefixes of the tree. -/
def StaysSpaced (encode : E → κ) (refusal : E → List UInt8 → Option String) (c : Call E)
    (m : RefMap E) : Prop :=
  Radix.Spaced 7 (viewKeys encode (RefMap.step refusal c m).2)

theorem run_spec (hinj : Function.Injective (view encode)) (hfree : Radix.PrefixFree K)
    (h : s.Inv K path lost) (hrep : Represents encode s m) (calls : List (Call E))
    (hkeys : ∀ c ∈ calls, c.KeyIn {k | view encode k ∈ K})
    (hspaced : RefMap.Along (fun k v => leafRefusal (encode k) v)
      (StaysSpaced encode fun k v => leafRefusal (encode k) v) calls m) :
    (run encode calls s).1 = (RefMap.run (fun k v => leafRefusal (encode k) v) calls m).1 ∧
    (∃ path lost, (run encode calls s).2.Inv K path lost) ∧
    Represents encode (run encode calls s).2
      (RefMap.run (fun k v => leafRefusal (encode k) v) calls m).2 := by
  induction calls generalizing s m path lost with
  | nil => exact ⟨rfl, ⟨path, lost, h⟩, hrep⟩
  | cons c cs ih =>
    have hagrees := agrees_step hinj h hfree hrep c (hkeys c List.mem_cons_self) hspaced.1
    obtain ⟨path', lost', hinv⟩ := hagrees.inv
    obtain ⟨hresults, hinv', hrep'⟩ := ih hinv hagrees.represents
      (fun c' hc' => hkeys c' (List.mem_cons_of_mem c hc')) hspaced.2
    rw [run_cons, RefMap.run_cons, hagrees.result, hresults]
    exact ⟨rfl, hinv', hrep'⟩

/-- Keys of at most eight bytes always branch often enough. -/
theorem along_short {refusal : E → List UInt8 → Option String} {calls : List (Call E)}
    (hkeys : ∀ c ∈ calls, c.KeyIn {k | (view encode k).length ≤ 8})
    (hm : ∀ k, (m k).isSome → (view encode k).length ≤ 8) :
    RefMap.Along refusal (StaysSpaced encode refusal) calls m := by
  induction calls generalizing m with
  | nil => trivial
  | cons c cs ih =>
    have hm' : ∀ k, ((RefMap.step refusal c m).2 k).isSome → (view encode k).length ≤ 8 := by
      intro k hk
      rcases RefMap.isSome_of_step hk with hk | ⟨v, rfl⟩
      · exact hm k hk
      · exact hkeys _ List.mem_cons_self
    refine ⟨Radix.Spaced.of_length_le ?_, ih (fun c' hc' => hkeys c' ?_) hm'⟩
    · rintro x ⟨k, hk, rfl⟩
      exact hm' k hk
    · exact List.mem_cons_of_mem c hc'

/-! ## 3. 64-bit keys -/

/-- The key strings of `db<std::uint64_t>`. -/
def u64Views : Set (List UInt8) := {x | x.length = 8}

theorem u64Views_prefixFree : Radix.PrefixFree u64Views := by
  intro k hk k' hk' hpre
  exact hpre.eq_of_length (hk.trans hk'.symm)

theorem view_mem_u64Views (k : BitVec 64) : view U64Key.make k ∈ u64Views :=
  U64Key.getKeyView_length _

theorem view_u64_injective : Function.Injective (view U64Key.make) := by
  intro k k' heq
  have hswap : bswap k = bswap k' := congrArg U64Key.key (U64Key.getKeyView_inj heq)
  rw [← bswap_bswap k, hswap, bswap_bswap]

/-- What `make_db_leaf_ptr` checks of a binding when the keys are integers. -/
def valueRefusal (v : List UInt8) : Option String :=
  if maxValueSize < v.length then some "Value length must fit in std::uint32_t" else none

theorem leafRefusal_u64 (k : U64Key) (v : List UInt8) : leafRefusal k v = valueRefusal v := by
  rw [leafRefusal, if_neg (by simp [ArtKey.isKeyView])]
  rfl

theorem keyIn_u64 {P : BitVec 64 → Prop} (h : ∀ k, P k) (c : Call (BitVec 64)) :
    c.KeyIn {k | P k} := by
  cases c <;> first | exact h _ | trivial

/-- The state after any calls of `db<std::uint64_t>` keeps its invariant and stores what a map
    would. -/
theorem run_u64_spec (calls : List (Call (BitVec 64))) :
    (run U64Key.make calls (Db.empty sizes)).1 =
      (RefMap.run (fun _ v => valueRefusal v) calls fun _ => none).1 ∧
    (∃ path lost, (run U64Key.make calls (Db.empty sizes)).2.Inv u64Views path lost) ∧
    Represents U64Key.make (run U64Key.make calls (Db.empty sizes)).2
      (RefMap.run (fun _ v => valueRefusal v) calls fun _ => none).2 := by
  have hempty : Represents U64Key.make (Db.empty sizes) fun _ => none := represents_empty
  have hspec := run_spec (m := fun _ => none) view_u64_injective u64Views_prefixFree
    (Inv.empty (fun _ => [])) hempty calls
    (fun c _ => keyIn_u64 view_mem_u64Views c)
    (along_short (fun c _ => keyIn_u64 (fun k => Nat.le_of_eq (view_mem_u64Views k)) c)
      fun k hk => by cases hk)
  simpa only [leafRefusal_u64] using hspec

/-- `db<std::uint64_t>` is a map from 64-bit integers to byte strings. -/
theorem run_u64_eq_map (calls : List (Call (BitVec 64))) :
    (run U64Key.make calls (Db.empty sizes)).1 =
      (RefMap.run (fun _ v => valueRefusal v) calls fun _ => none).1 :=
  (run_u64_spec calls).1

/-- An overlong value is refused where a map would store it. -/
theorem run_u64_overlong {v : List UInt8} (hv : maxValueSize < v.length) :
    (run U64Key.make [.insert 0 v] (Db.empty sizes)).1 ≠
      (RefMap.run (fun _ _ => none) [.insert 0 v] fun _ => none).1 := by
  rw [(run_u64_spec _).1]
  simp [RefMap.run, RefMap.step, valueRefusal, hv]

/-- A value of 4 GiB is refused. -/
theorem run_u64_ne_map :
    (run U64Key.make [.insert 0 (List.replicate (2 ^ 32) 0)] (Db.empty .db)).1 ≠
      (RefMap.run (fun _ _ => none) [.insert 0 (List.replicate (2 ^ 32) 0)] fun _ => none).1 := by
  apply run_u64_overlong
  rw [List.length_replicate]
  decide

/-! ## 4. Byte-string keys -/

theorem leafRefusal_keyView {k : List UInt8} (hk : k.length ≤ maxKeySize) (v : List UInt8) :
    leafRefusal (KeyView.mk k) v = valueRefusal v := by
  rw [leafRefusal, if_neg (by rintro ⟨-, hlt⟩; exact absurd hk (Nat.not_le.mpr hlt))]
  rfl

/-- What a call of `db<key_view>` needs of the stored keys: a value that is stored has at most
    `2 ^ 32 - 1` bytes, and the keys that are stored afterwards branch often enough. -/
def KeyViewOk (c : Call (List UInt8)) (m : RefMap (List UInt8)) : Prop :=
  (∀ k v, c = .insert k v → m k = none → v.length ≤ maxValueSize) ∧
  StaysSpaced KeyView.mk (fun _ _ => none) c m

theorem KeyViewOk.step_eq {c : Call (List UInt8)} {m : RefMap (List UInt8)} (h : KeyViewOk c m)
    (hc : c.KeyIn {k | k.length ≤ maxKeySize}) :
    RefMap.step (fun _ _ => none) c m =
      RefMap.step (fun k v => leafRefusal (KeyView.mk k) v) c m := by
  cases c with
  | insert k v =>
    simp only [RefMap.step]
    by_cases hsome : (m k).isSome
    · rw [if_pos hsome, if_pos hsome]
    · have hv := h.1 k v rfl (Option.not_isSome_iff_eq_none.mp hsome)
      rw [leafRefusal_keyView hc, valueRefusal, if_neg (Nat.not_lt.mpr hv)]
  | remove | get | empty | clear => rfl

/-- `db<key_view>` is a map from the strings of a prefix-free set to byte strings, in every run
    that keeps the stored keys branching often enough. -/
theorem run_keyView_eq_map {K : Set (List UInt8)} (hfree : Radix.PrefixFree K)
    (hsize : ∀ k ∈ K, 1 ≤ k.length ∧ k.length ≤ maxKeySize) {calls : List (Call (List UInt8))}
    (hkeys : ∀ c ∈ calls, c.KeyIn K)
    (hok : RefMap.Along (fun _ _ => none) KeyViewOk calls fun _ => none) :
    (run KeyView.mk calls (Db.empty sizes)).1 = (RefMap.run (fun _ _ => none) calls fun _ => none).1 := by
  have hlen : ∀ c ∈ calls, c.KeyIn {k | k.length ≤ maxKeySize} := by
    intro c hc
    have hcK := hkeys c hc
    cases c <;> first | exact (hsize _ hcK).2 | trivial
  have hsame : RefMap.Along (fun _ _ => none)
      (fun c m => RefMap.step (fun _ _ => none) c m =
        RefMap.step (fun k v => leafRefusal (KeyView.mk k) v) c m) calls fun _ => none :=
    hok.mono fun c hc m h => h.step_eq (hlen c hc)
  obtain ⟨hrun, halong⟩ := RefMap.run_congr hsame
  have hspaced : RefMap.Along (fun k v => leafRefusal (KeyView.mk k) v)
      (StaysSpaced KeyView.mk fun k v => leafRefusal (KeyView.mk k) v) calls fun _ => none := by
    refine (halong _).mp (hok.mono fun c hc m h => ?_)
    rw [StaysSpaced, ← h.step_eq (hlen c hc)]
    exact h.2
  have hinj : Function.Injective (view KeyView.mk) := fun k k' (heq : k = k') => heq
  rw [hrun]
  exact (run_spec hinj hfree (Inv.empty fun _ => []) represents_empty calls hkeys hspaced).1

/-- Four calls with keys of two bytes. -/
theorem run_keyView_eq_map_short :
    (run KeyView.mk [.insert [1, 2] [7], .insert [1, 3] [8], .remove [1, 2], .get [1, 3]]
        (Db.empty .db)).1 =
      (RefMap.run (fun _ _ => none)
        [.insert [1, 2] [7], .insert [1, 3] [8], .remove [1, 2], .get [1, 3]] fun _ => none).1 := by
  have hshort : RefMap.Along (fun _ _ => none) (StaysSpaced KeyView.mk fun _ _ => none)
      [.insert [1, 2] [7], .insert [1, 3] [8], .remove [1, 2], .get [1, 3]] fun _ => none := by
    refine along_short ?_ fun k hk => by cases hk
    simp [Call.KeyIn, view, ArtKey.getKeyView]
  refine run_keyView_eq_map (K := {[1, 2], [1, 3]}) ?_ ?_ ?_ ?_
  · simp [Radix.PrefixFree]
  · simp [maxKeySize]
  · simp [Call.KeyIn]
  · refine ⟨⟨?_, hshort.1⟩, ⟨?_, hshort.2.1⟩, ⟨?_, hshort.2.2.1⟩, ⟨?_, hshort.2.2.2.1⟩, trivial⟩
    all_goals simp +contextual [maxValueSize]

/-- Two keys that differ only in their ninth byte do not fit in one tree. -/
theorem run_keyView_ne_map :
    Radix.PrefixFree {[0, 0, 0, 0, 0, 0, 0, 0, 1], [0, 0, 0, 0, 0, 0, 0, 0, (2 : UInt8)]} ∧
    (run KeyView.mk [.insert [0, 0, 0, 0, 0, 0, 0, 0, 1] [], .insert [0, 0, 0, 0, 0, 0, 0, 0, 2] []]
      (Db.empty .db)).1 = [.ok (.bool true), .error .assertion] ∧
    (RefMap.run (fun _ _ => none)
      [.insert [0, 0, 0, 0, 0, 0, 0, 0, 1] [], .insert [0, 0, 0, 0, 0, 0, 0, 0, 2] []]
      fun _ => none).1 = [.ok (.bool true), .ok (.bool true)] := by
  refine ⟨?_, by decide +kernel, ?_⟩
  · simp [Radix.PrefixFree]
  · simp [RefMap.run, RefMap.step]

end Db

end Unodb
