import Unodb.Util.Outcome
import Unodb.Node.Rep

/-!
# New `basic_inode_4` nodes

The two ways in which an insertion makes an inner node of two children: where a key leaves the path
of another one below the last inner node, and where a key leaves the prefix of an inner node.
-/

open Arrays

namespace Unodb

/-- `operator[]` of a `key_view`. -/
def viewByte (key : List UInt8) (i : Nat) : Except Fault UInt8 :=
  match key[i]? with
  | some b => .ok b
  | none => .error .badAccess

theorem viewByte_eq_ok {key : List UInt8} {i : Nat} {b : UInt8} (h : key[i]? = some b) :
    viewByte key i = .ok b := by
  rw [viewByte, h]

namespace INode

variable {P κ : Type}

/-- `basic_inode_4::init(k1, shifted_k2, depth, child1, child2)`. -/
def initLeafSplit [ArtKey κ] (keyPrefix : KeyPrefix) (k1 : List UInt8) (shiftedK2 : κ)
    (depth : Nat) (child1 child2 : P) : Except Fault (INode P) := do
  let k2NextByteDepth := keyPrefix.length
  let k1NextByteDepth := k2NextByteDepth + depth
  addTwoToEmpty keyPrefix (← viewByte k1 k1NextByteDepth) child1
    (← ArtKey.byteAt shiftedK2 k2NextByteDepth) child2

/-- `basic_inode_4::init(source_node, shared_prefix_len, depth, child1)`: the new node, and the
    prefix that the source node is left with.  `key1` is the key of the leaf `child1`. -/
def initPrefixSplit (keyPrefix sourceKeyPrefix : KeyPrefix) (sourceNode : P)
    (sharedPrefixLen depth : Nat) (key1 : List UInt8) (child1 : P) :
    Except Fault (INode P × KeyPrefix) := do
  assertThat (sharedPrefixLen < sourceKeyPrefix.length)
  let diffKeyByteI := depth + sharedPrefixLen
  let sourceNodeKeyByte ← sourceKeyPrefix.byteAt sharedPrefixLen
  let cut ← sourceKeyPrefix.cut (sharedPrefixLen + 1)
  let newKeyByte ← viewByte key1 diffKeyByteI
  let node ← addTwoToEmpty keyPrefix sourceNodeKeyByte sourceNode newKeyByte child1
  return (node, cut)

/-- The node below a split keeps less of its key prefix. -/
theorem initPrefixSplit_length_le {kp kp0 cut : KeyPrefix} {sourceNode child1 : P} {len depth : Nat}
    {key1 : List UInt8} {n : INode P}
    (h : initPrefixSplit kp kp0 sourceNode len depth key1 child1 = .ok (n, cut)) :
    cut.length ≤ kp0.length := by
  obtain ⟨_, -, h⟩ := ok_of_bind h
  obtain ⟨_, -, h⟩ := ok_of_bind h
  obtain ⟨_, hcut, h⟩ := ok_of_bind h
  obtain ⟨_, -, h⟩ := ok_of_bind h
  obtain ⟨_, -, h⟩ := ok_of_bind h
  cases h
  exact KeyPrefix.cut_length_le hcut

/-- Two keys that part ways within eight bytes of where they are compared make a node. -/
theorem initLeafSplit_spec [LawfulArtKey κ] {k1 : List UInt8} {r : κ} {depth : Nat}
    {s : List UInt8} (hr : LawfulArtKey.Rem r s) (hdepth : depth ≤ k1.length)
    (h12 : ¬ k1.drop depth <+: s) (h21 : ¬ s <+: k1.drop depth)
    (hfit : (k1.drop depth).take 8 ≠ s.take 8) (child1 child2 : P) :
    ∃ kp n b1 b2, KeyPrefix.make k1 r depth = .ok kp ∧
      initLeafSplit kp k1 r depth child1 child2 = .ok n ∧ n.keyPrefix = kp ∧ n.type = .i4 ∧
      b1 ≠ b2 ∧
      n.Rep (Function.update (Function.update (fun _ => none) b1 (some child1)) b2 (some child2)) ∧
      kp.bytes ++ [b1] <+: k1.drop depth ∧ kp.bytes ++ [b2] <+: s := by
  obtain ⟨kp, hmake, hlt1, hlt2, htake1, htake2, hdiff⟩ := KeyPrefix.make_spec hr hdepth h12 h21
  obtain ⟨b1, hb1⟩ : ∃ b1, (k1.drop depth)[kp.length]? = some b1 :=
    ⟨_, List.getElem?_eq_getElem hlt1⟩
  obtain ⟨b2, hb2⟩ : ∃ b2, s[kp.length]? = some b2 := ⟨_, List.getElem?_eq_getElem hlt2⟩
  have hsnoc : ∀ {u : List UInt8} {b : UInt8}, kp.bytes = u.take kp.length →
      u[kp.length]? = some b → kp.bytes ++ [b] = u.take (kp.length + 1) := by
    intro u b hu hb
    rw [List.take_add_one, hb, Option.toList_some, ← hu]
  have hne : b1 ≠ b2 := by
    rintro rfl
    have hcap := kp.length_le_capacity
    by_cases h7 : kp.length < 7
    · exact hdiff h7 (hb1.trans hb2.symm)
    · -- All seven bytes of the prefix are shared and so is the next one.
      apply hfit
      rw [show 8 = kp.length + 1 by omega, ← hsnoc htake1 hb1, ← hsnoc htake2 hb2]
  obtain ⟨n, hn, hrep, hpre, htype⟩ := addTwoToEmpty_spec kp hne child1 child2
  refine ⟨kp, n, b1, b2, hmake, ?_, hpre, htype, hne, hrep, ?_, ?_⟩
  · have hb1' : k1[kp.length + depth]? = some b1 := by
      rw [← hb1, List.getElem?_drop, Nat.add_comm]
    simp only [initLeafSplit, viewByte_eq_ok hb1', LawfulArtKey.rem_byteAt hr hb2]
    exact hn
  · rw [hsnoc htake1 hb1]
    exact List.take_prefix _ _
  · rw [hsnoc htake2 hb2]
    exact List.take_prefix _ _

/-- Two keys that agree in the eight bytes from where they are compared make none. -/
theorem initLeafSplit_stuck [LawfulArtKey κ] {k1 : List UInt8} {r : κ} {depth : Nat}
    {s : List UInt8} (hr : LawfulArtKey.Rem r s) (hdepth : depth ≤ k1.length)
    (h12 : ¬ k1.drop depth <+: s) (h21 : ¬ s <+: k1.drop depth)
    (hsame : (k1.drop depth).take 8 = s.take 8) (child1 child2 : P) :
    ∃ kp, KeyPrefix.make k1 r depth = .ok kp ∧
      initLeafSplit kp k1 r depth child1 child2 = .error .assertion := by
  obtain ⟨kp, hmake, hlt1, hlt2, -, -, hdiff⟩ := KeyPrefix.make_spec hr hdepth h12 h21
  have hcap := kp.length_le_capacity
  have hbyte : (k1.drop depth)[kp.length]? = s[kp.length]? := by
    have hidx := congrArg (·[kp.length]?) hsame
    simp only [List.getElem?_take] at hidx
    rwa [if_pos (by omega), if_pos (by omega)] at hidx
  obtain ⟨b, hb⟩ : ∃ b, s[kp.length]? = some b := ⟨_, List.getElem?_eq_getElem hlt2⟩
  have hb1 : k1[kp.length + depth]? = some b := by
    rw [Nat.add_comm, ← List.getElem?_drop, hbyte, hb]
  refine ⟨kp, hmake, ?_⟩
  simp only [initLeafSplit, viewByte_eq_ok hb1, LawfulArtKey.rem_byteAt hr hb, bind, Except.bind]
  rw [addTwoToEmpty, assertThat, if_neg (not_not.mpr rfl)]
  rfl

/-- A key that leaves the prefix of a node after the bytes they share makes a node. -/
theorem initPrefixSplit_spec {kp0 : KeyPrefix} {w : BitVec 64} {s key1 : List UInt8} {depth : Nat}
    (hw : ∀ i < 8, Words.wordByte w i = s.getD i 0) (hs : ¬ s <+: kp0.bytes)
    (hlt : kp0.getSharedLength w < kp0.length) (hkey : key1.drop depth = s)
    (sourceNode child1 : P) :
    ∃ kp n cut b c, KeyPrefix.truncate (kp0.getSharedLength w) kp0 = .ok kp ∧
      initPrefixSplit kp kp0 sourceNode (kp0.getSharedLength w) depth key1 child1 = .ok (n, cut) ∧
      n.keyPrefix = kp ∧ n.type = .i4 ∧ b ≠ c ∧
      n.Rep (Function.update (Function.update (fun _ => none) b (some sourceNode)) c
        (some child1)) ∧
      kp0.bytes = kp.bytes ++ [b] ++ cut.bytes ∧ kp.bytes ++ [c] <+: s := by
  obtain ⟨b, c, hb, hc, hbc, htake⟩ := KeyPrefix.getSharedLength_lt hw hs hlt
  obtain ⟨kp, hkp, hkpbytes⟩ := KeyPrefix.truncate_spec (Nat.le_of_lt hlt)
  obtain ⟨cut, hcut, hcutbytes⟩ := KeyPrefix.cut_spec (n := kp0.getSharedLength w + 1)
    (Nat.succ_pos _) hlt
  obtain ⟨n, hn, hrep, hpre, htype⟩ := addTwoToEmpty_spec kp hbc sourceNode child1
  refine ⟨kp, n, cut, b, c, hkp, ?_, hpre, htype, hbc, hrep, ?_, ?_⟩
  · have hc' : key1[depth + kp0.getSharedLength w]? = some c := by
      rw [← hc, ← hkey, List.getElem?_drop]
    simp only [initPrefixSplit, assertThat_pos hlt, KeyPrefix.byteAt_eq_ok hb, hcut,
      viewByte_eq_ok hc']
    change (do let node ← addTwoToEmpty kp b sourceNode c child1; pure (node, cut)) = _
    rw [hn]
    rfl
  · rw [hkpbytes, hcutbytes, List.append_assoc]
    calc kp0.bytes
        = kp0.bytes.take (kp0.getSharedLength w) ++ kp0.bytes.drop (kp0.getSharedLength w) :=
          (List.take_append_drop _ _).symm
      _ = _ := by
          congr 1
          obtain ⟨hi, hget⟩ := List.getElem?_eq_some_iff.mp hb
          rw [List.drop_eq_getElem_cons hi, hget]
          rfl
  · rw [hkpbytes, htake]
    have : s.take (kp0.getSharedLength w) ++ [c] = s.take (kp0.getSharedLength w + 1) := by
      rw [List.take_add_one, hc, Option.toList_some]
    rw [this]
    exact List.take_prefix _ _

end INode

end Unodb
