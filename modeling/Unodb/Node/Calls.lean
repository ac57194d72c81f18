import Unodb.Node.Iter

/-!
# A node through a sequence of calls

The abstract side is an ordered finite map from bytes to children that are not null.  The tree code
keeps one node busy with calls of every kind; each has a precondition and an answer in terms of the
map, and a whole sequence of calls is followed by induction.
-/

open Arrays

namespace Unodb

variable {P : Type}

/-! ## 1. The ordered map -/

/-- A map from bytes to children. -/
abbrev ByteMap (P : Type) := UInt8 → Option P

namespace ByteMap

/-- The keys of a set that the map binds. -/
def keysIn (f : ByteMap P) (s : Set UInt8) : Set UInt8 := {b | b ∈ s ∧ (f b).isSome}

/-- The least key in a set, if there is one. -/
def LeastIn (f : ByteMap P) (s : Set UInt8) : Option UInt8 → Prop
  | none => f.keysIn s = ∅
  | some b => IsLeast (f.keysIn s) b

/-- The greatest key in a set, if there is one. -/
def GreatestIn (f : ByteMap P) (s : Set UInt8) : Option UInt8 → Prop
  | none => f.keysIn s = ∅
  | some b => IsGreatest (f.keysIn s) b

/-- The children in the order of their keys. -/
def children (f : ByteMap P) : List P := (boundBytes f).filterMap f

end ByteMap

/-! ## 2. Calls -/

/-- A call on an inner node.  A child index is passed along with the key byte it stands for, which
the code of the call does not read. -/
inductive NodeCall (P : Type) where
  | findChild (keyByte : UInt8)
  | getChild (keyByte : UInt8) (childIndex : Nat)
  | addToNonfull (child : P) (keyByte : UInt8)
  | grow (child : P) (keyByte : UInt8)
  | remove (keyByte : UInt8) (childIndex : Nat)
  | shrink (keyByte : UInt8) (childIndex : Nat)
  | leaveLastChild (keyByte : UInt8) (childIndex : Nat)
  | begin
  | last
  | next (keyByte : UInt8) (childIndex : Nat)
  | prior (keyByte : UInt8) (childIndex : Nat)
  | gteKeyByte (keyByte : UInt8)
  | lteKeyByte (keyByte : UInt8)
  | deleteSubtree

/-- What a call returns. -/
inductive NodeAnswer (P : Type) where
  | done
  /-- A child index and what is read through the pointer that comes with it. -/
  | found (result : Option (Nat × Option P))
  | child (pointer : Option P)
  | position (result : Option IterResult)
  | left (keyByte : UInt8) (child : P)
  | visited (children : List P)

namespace INode

/-- The child index of a key byte. -/
def indexOf (n : INode P) (b : UInt8) : Option Nat := (n.findChild b).map Prod.fst

/-- The loads of a loop over the keys in use.  A table of all bytes is read at bytes only. -/
def scanKeys (n : INode P) : Except Fault Unit :=
  match n.layout with
  | .i4 keys _ | .i16 keys _ => do
    let _ ← inBounds (slice keys 0 n.childrenCount)
  | _ => .ok ()

/-- A load through the pointer to slot `i`. -/
def loadSlot (n : INode P) (i : Nat) : Except Fault (Option P) :=
  match n.layout with
  | .i4 _ children | .i16 _ children | .i48 _ children => inBounds children[i]?
  | .i256 children => inBounds (if i < 256 then some (children (UInt8.ofNat i)) else none)

/-- `find_child` and a load through the pointer it returns. -/
def loadFound (n : INode P) (b : UInt8) : Except Fault (Option (Nat × Option P)) := do
  n.scanKeys
  match n.findChild b with
  | none => return none
  | some (ci, i) => return some (ci, ← n.loadSlot i)

/-- `get_child`. -/
def loadChild (n : INode P) (childIndex : Nat) : Except Fault (Option P) :=
  match n.layout with
  | .i48 childIndexes _ =>
    if childIndexes (UInt8.ofNat childIndex) = emptyChild then return none
    else n.loadSlot (childIndexes (UInt8.ofNat childIndex)).toNat
  | _ => n.loadSlot childIndex

/-- `delete_subtree`.  The two smaller types follow every pointer in use, the others skip the null
pointers and assert the 8-bit number of children. -/
def deleteSubtree (n : INode P) : Except Fault (List P) :=
  match n.layout with
  | .i4 _ children | .i16 _ children => do
    (← inBounds (slice children 0 n.childrenCount)).mapM inBounds
  | .i48 _ children => do
    let visited := (← inBounds (slice children 0 NodeType.i48.capacity)).filterMap id
    assertThat (visited.length % 256 = n.childrenCount)
    return visited
  | .i256 children => do
    let visited := allBytes.filterMap children
    assertThat (visited.length % 256 = n.childrenCount)
    return visited

/-- Run a call.  Every array access faults past the end of its array: these are the loads of a node
that nobody else writes, where a reader of `olc_db` may see one in the middle of an update. -/
def exec (n : INode P) : NodeCall P → Except Fault (INode P × NodeAnswer P)
  | .findChild b => return (n, .found (← n.loadFound b))
  | .getChild _ ci => return (n, .child (← n.loadChild ci))
  | .addToNonfull p b => return (← n.addToNonfull p b n.childrenCount, .done)
  | .grow p b => return (← n.grow p b, .done)
  | .remove _ ci => return (← n.remove ci, .done)
  | .shrink _ ci => return (← n.shrink ci, .done)
  | .leaveLastChild _ ci => do
    let (b, p) ← n.lastChild ci
    return (n, .left b p)
  | .begin => return (n, .position (some (← n.begin)))
  | .last => return (n, .position (some (← n.last)))
  | .next _ ci => return (n, .position (← n.next ci))
  | .prior _ ci => return (n, .position (← n.prior ci))
  | .gteKeyByte b => do
    n.scanKeys
    return (n, .position (n.gteKeyByte b))
  | .lteKeyByte b => do
    n.scanKeys
    return (n, .position (n.lteKeyByte b))
  | .deleteSubtree => return (n, .visited (← n.deleteSubtree))

end INode

namespace NodeCall

/-- When the tree code makes a call: a new key byte is absent, a child index is that of a present
key byte, and the size of the node decides between the node that stays and the one that follows. -/
def Allowed (n : INode P) (f : ByteMap P) : NodeCall P → Prop
  | .addToNonfull _ b => f b = none ∧ degree f < n.type.capacity
  | .grow _ b => f b = none ∧ degree f = n.type.capacity ∧ n.type ≠ .i256
  | .remove b ci => n.indexOf b = some ci ∧ n.type.minSize < degree f
  | .shrink b ci => n.indexOf b = some ci ∧ degree f = n.type.minSize ∧ n.type ≠ .i4
  | .leaveLastChild b ci => n.indexOf b = some ci ∧ degree f = n.type.minSize ∧ n.type = .i4
  | .getChild b ci | .next b ci | .prior b ci => n.indexOf b = some ci
  | _ => True

/-- The map after a call. -/
def after (f : ByteMap P) : NodeCall P → ByteMap P
  | .addToNonfull p b | .grow p b => Function.update f b (some p)
  | .remove b _ | .shrink b _ => Function.update f b none
  | _ => f

/-- The type of the node after a call. -/
def typeAfter (type : NodeType) : NodeCall P → NodeType
  | .grow .. => type.larger
  | .shrink .. => type.smaller
  | _ => type

/-- What the map says a call has to return. -/
def Returns (f : ByteMap P) : NodeCall P → NodeAnswer P → Prop
  | .findChild b, .found none => f b = none
  | .findChild b, .found (some (_, p)) => p.isSome ∧ f b = p
  | .getChild b _, .child p => p.isSome ∧ f b = p
  | .leaveLastChild b _, .left b' p' =>
    b' ≠ b ∧ f b' = some p' ∧ ∀ x, (f x).isSome → x = b ∨ x = b'
  | .begin, .position e => e.isSome ∧ f.LeastIn Set.univ (e.map (·.keyByte))
  | .last, .position e => e.isSome ∧ f.GreatestIn Set.univ (e.map (·.keyByte))
  | .next b _, .position e => f.LeastIn (Set.Ioi b) (e.map (·.keyByte))
  | .prior b _, .position e => f.GreatestIn (Set.Iio b) (e.map (·.keyByte))
  | .gteKeyByte b, .position e => f.LeastIn (Set.Ici b) (e.map (·.keyByte))
  | .lteKeyByte b, .position e => f.GreatestIn (Set.Iic b) (e.map (·.keyByte))
  | .deleteSubtree, .visited ps => ps.Perm f.children
  | .addToNonfull .., .done | .grow .., .done | .remove .., .done | .shrink .., .done => True
  | _, _ => False

end NodeCall

/-- An iteration result carries the child index of its key byte, for the calls that follow, and the
key prefix of the node. -/
def NodeAnswer.PositionIn (n : INode P) : NodeAnswer P → Prop
  | .position (some e) => n.indexOf e.keyByte = some e.childIndex ∧ e.keyPrefix = n.keyPrefix
  | .found (some (ci, _)) => ∃ b, n.indexOf b = some ci
  | _ => True

/-- A call did what the map says: it returned the map's answer and left a node that represents the
map after the call, with the same key prefix. -/
structure NodeCall.Meets (call : NodeCall P) (n : INode P) (f : ByteMap P) (n' : INode P)
    (answer : NodeAnswer P) : Prop where
  returns : call.Returns f answer
  position : answer.PositionIn n
  rep : n'.Rep (call.after f)
  keyPrefix_eq : n'.keyPrefix = n.keyPrefix
  type_eq : n'.type = call.typeAfter n.type

namespace INode

/-- A sequence of calls, each made when it is allowed, does what the map says. -/
def Refines : INode P → ByteMap P → List (NodeCall P) → Prop
  | _, _, [] => True
  | n, f, call :: calls => call.Allowed n f →
    ∃ n' answer, n.exec call = .ok (n', answer) ∧ call.Meets n f n' answer ∧
      Refines n' (call.after f) calls

end INode

/-! ## 3. Each call -/

namespace INode

theorem exists_findChild_of_indexOf {n : INode P} {b : UInt8} {ci : Nat}
    (h : n.indexOf b = some ci) : ∃ s, n.findChild b = some (ci, s) := by
  rw [indexOf, Option.map_eq_some_iff] at h
  obtain ⟨⟨ci', s⟩, hfind, rfl⟩ := h
  exact ⟨s, hfind⟩

theorem IsResult.positionIn {n : INode P} {e : IterResult} (h : n.IsResult e) :
    (NodeAnswer.position (some e)).PositionIn n := by
  obtain ⟨i, hi⟩ := h.find
  refine ⟨?_, h.keyPrefix_eq⟩
  rw [indexOf, hi]
  rfl

theorem FindsLeast.leastIn {n : INode P} {s : Set UInt8} {e : Option IterResult}
    (h : n.FindsLeast s e) : ByteMap.LeastIn n.child s (e.map (·.keyByte)) := by
  cases e with
  | none => exact h
  | some e => exact h.2

theorem FindsGreatest.greatestIn {n : INode P} {s : Set UInt8} {e : Option IterResult}
    (h : n.FindsGreatest s e) : ByteMap.GreatestIn n.child s (e.map (·.keyByte)) := by
  cases e with
  | none => exact h
  | some e => exact h.2

theorem FindsLeast.positionIn {n : INode P} {s : Set UInt8} {e : Option IterResult}
    (h : n.FindsLeast s e) : (NodeAnswer.position e : NodeAnswer P).PositionIn n := by
  cases e with
  | none => trivial
  | some e => exact h.1.positionIn

theorem FindsGreatest.positionIn {n : INode P} {s : Set UInt8} {e : Option IterResult}
    (h : n.FindsGreatest s e) : (NodeAnswer.position e : NodeAnswer P).PositionIn n := by
  cases e with
  | none => trivial
  | some e => exact h.1.positionIn

/-- The keys in use lie within their array. -/
theorem WF.scanKeys {n : INode P} (h : n.WF) : n.scanKeys = .ok () := by
  have hl := h.layout
  obtain ⟨keyPrefix, count, layout⟩ := n
  cases layout with
  | i4 keys children | i16 keys children =>
    have hle : count ≤ keys.length := hl.keys_length ▸ hl.count_le
    rw [INode.scanKeys]
    dsimp only
    rw [inBounds_bind (slice_zero hle)]
    rfl
  | i48 childIndexes children | i256 children => rfl

/-- The slot of a found child lies within the pointer array. -/
theorem WF.loadSlot {n : INode P} (h : n.WF) {b : UInt8} {ci s : Nat}
    (hfind : n.findChild b = some (ci, s)) : n.loadSlot s = .ok (n.slot s) := by
  obtain ⟨p, -, hs, -⟩ := h.findChild_eq_some hfind
  obtain ⟨keyPrefix, count, layout⟩ := n
  cases layout with
  | i4 keys children | i16 keys children | i48 childIndexes children =>
    have hget : children[s]? = some (some p) := Option.join_eq_some_iff.mp hs
    rw [hs, INode.loadSlot]
    dsimp only
    rw [hget]
    rfl
  | i256 children =>
    simp only [findChild] at hfind
    split at hfind
    · cases hfind
      rw [INode.loadSlot]
      dsimp only
      rw [if_pos (show b.toNat < 256 from b.toNat_lt)]
      rfl
    · cases hfind

/-- A child index that a key byte has leads to a slot within the pointer array. -/
theorem WF.loadChild {n : INode P} (h : n.WF) {b : UInt8} {ci s : Nat}
    (hfind : n.findChild b = some (ci, s)) : n.loadChild ci = .ok (n.getChild ci) := by
  have hload := h.loadSlot hfind
  obtain ⟨p, -, hs, hg⟩ := h.findChild_eq_some hfind
  rw [hs] at hload
  rw [hg]
  obtain ⟨keyPrefix, count, layout⟩ := n
  cases layout with
  | i4 keys children | i16 keys children =>
    simp only [findChild, Option.map_eq_some_iff] at hfind
    obtain ⟨i, -, heq⟩ := hfind
    cases heq
    exact hload
  | i48 childIndexes children =>
    simp only [findChild] at hfind
    split at hfind
    · rename_i hne
      cases hfind
      rw [INode.loadChild]
      dsimp only
      rw [UInt8.ofNat_toNat, if_neg hne]
      exact hload
    · cases hfind
  | i256 children =>
    simp only [findChild] at hfind
    split at hfind
    · cases hfind
      exact hload
    · cases hfind

theorem WF.loadFound {n : INode P} (h : n.WF) (b : UInt8) :
    n.loadFound b = .ok ((n.findChild b).map fun r => (r.1, n.slot r.2)) := by
  rw [INode.loadFound, h.scanKeys]
  cases hfind : n.findChild b with
  | none => rfl
  | some r =>
    have hload := h.loadSlot hfind
    change (do
      let pointer ← n.loadSlot r.2
      pure (some (r.1, pointer))) = _
    rw [hload]
    rfl

/-- Pointers none of which is null can all be followed. -/
theorem mapM_inBounds {l : List (Option P)} (h : ∀ x ∈ l, ∃ p, x = some p) :
    l.mapM inBounds = .ok (l.filterMap id) := by
  induction l with
  | nil => rfl
  | cons x l ih =>
    obtain ⟨p, rfl⟩ := h x List.mem_cons_self
    rw [List.mapM_cons, inBounds_bind rfl, ih fun y hy => h y (List.mem_cons_of_mem _ hy)]
    rfl

theorem WF.deleteSubtree_eq {n : INode P} (h : n.WF) : n.deleteSubtree = .ok n.subtrees := by
  have hlen := h.subtrees_length
  have hl := h.layout
  obtain ⟨keyPrefix, count, layout⟩ := n
  cases layout with
  | i4 keys children | i16 keys children =>
    have hle : count ≤ children.length := hl.children_length ▸ hl.count_le
    rw [INode.deleteSubtree]
    dsimp only
    rw [inBounds_bind (slice_zero hle), mapM_inBounds]
    · rfl
    · intro x hx
      obtain ⟨i, hi, rfl⟩ := List.mem_take_iff_getElem.mp hx
      obtain ⟨p, hp⟩ := hl.defined (show i < count by omega)
      exact ⟨p, (List.getElem?_eq_some_iff.mp hp).2⟩
  | i48 childIndexes children =>
    have hc : children.length = NodeType.i48.capacity := hl.children_length
    simp only [INode.subtrees] at hlen
    rw [INode.deleteSubtree]
    dsimp only
    rw [inBounds_bind (slice_zero (by omega)), List.take_of_length_le (by omega),
      assertThat_bind hlen]
    rfl
  | i256 children =>
    simp only [INode.subtrees] at hlen
    rw [INode.deleteSubtree]
    dsimp only
    rw [assertThat_bind hlen]
    rfl

/-- `delete_subtree` passes its assertion and visits every child once. -/
theorem WF.deleteSubtree {n : INode P} (h : n.WF) :
    ∃ ps, n.deleteSubtree = .ok ps ∧ ps.Perm (ByteMap.children n.child) := by
  obtain ⟨bs, hnodup, hmem, hsub⟩ := h.subtrees
  refine ⟨n.subtrees, h.deleteSubtree_eq, ?_⟩
  rw [hsub, ByteMap.children]
  refine List.Perm.filterMap _ ((List.perm_ext_iff_of_nodup hnodup
    (allBytes_nodup.filter _)).mpr fun b => ?_)
  rw [hmem]
  simp [mem_allBytes]

/-- A call that reads the node. -/
theorem WF.meets_read {n : INode P} (h : n.WF) {call : NodeCall P} {answer : NodeAnswer P}
    (hafter : call.after n.child = n.child) (htype : call.typeAfter n.type = n.type)
    (hreturns : call.Returns n.child answer) (hpos : answer.PositionIn n) :
    call.Meets n n.child n answer where
  returns := hreturns
  position := hpos
  rep := by
    rw [hafter]
    exact h
  keyPrefix_eq := rfl
  type_eq := htype.symm

/-- Every allowed call does what the map says. -/
theorem WF.exec_meets {n : INode P} (h : n.WF) (call : NodeCall P)
    (hallowed : call.Allowed n n.child) :
    ∃ n' answer, n.exec call = .ok (n', answer) ∧ call.Meets n n.child n' answer := by
  -- One case for each call; the work is done by the lemma about the function that it runs.
  cases call with
  | findChild b =>
    refine ⟨n, .found ((n.findChild b).map fun r => (r.1, n.slot r.2)), ?_,
      h.meets_read rfl rfl ?_ ?_⟩
    · rw [exec, h.loadFound]
      rfl
    · cases hfind : n.findChild b with
      | none => exact (h.findChild_eq_none_iff b).mp hfind
      | some r =>
        obtain ⟨p, hp, hs, -⟩ := h.findChild_eq_some hfind
        show (n.slot r.2).isSome ∧ n.child b = n.slot r.2
        rw [hs]
        exact ⟨rfl, hp⟩
    · cases hfind : n.findChild b with
      | none => trivial
      | some r => exact ⟨b, by rw [indexOf, hfind]; rfl⟩
  | getChild b ci =>
    obtain ⟨s, hfind⟩ := exists_findChild_of_indexOf hallowed
    obtain ⟨p, hp, -, hg⟩ := h.findChild_eq_some hfind
    refine ⟨n, .child (n.getChild ci), ?_, h.meets_read rfl rfl ?_ trivial⟩
    · rw [exec, h.loadChild hfind]
      rfl
    show (n.getChild ci).isSome ∧ n.child b = n.getChild ci
    rw [hg]
    exact ⟨rfl, hp⟩
  | addToNonfull p b =>
    obtain ⟨hb, hroom⟩ := hallowed
    obtain ⟨n', hok, hrep, hprefix, htype⟩ := h.addToNonfull hb hroom p
    refine ⟨n', .done, ?_, trivial, trivial, hrep, hprefix, htype⟩
    rw [exec, hok]
    rfl
  | grow p b =>
    obtain ⟨hb, hfull, h256⟩ := hallowed
    obtain ⟨n', hok, hrep, hprefix, htype⟩ := h.grow hb hfull h256 p
    refine ⟨n', .done, ?_, trivial, trivial, hrep, hprefix, htype⟩
    rw [exec, hok]
    rfl
  | remove b ci =>
    obtain ⟨hci, hmin⟩ := hallowed
    obtain ⟨s, hfind⟩ := exists_findChild_of_indexOf hci
    obtain ⟨n', hok, hrep, hprefix, htype⟩ := h.remove hfind hmin
    refine ⟨n', .done, ?_, trivial, trivial, hrep, hprefix, htype⟩
    rw [exec, hok]
    rfl
  | shrink b ci =>
    obtain ⟨hci, hmin, h4⟩ := hallowed
    obtain ⟨s, hfind⟩ := exists_findChild_of_indexOf hci
    obtain ⟨n', hok, hrep, hprefix, htype⟩ := h.shrink hfind hmin h4
    refine ⟨n', .done, ?_, trivial, trivial, hrep, hprefix, htype⟩
    rw [exec, hok]
    rfl
  | leaveLastChild b ci =>
    obtain ⟨hci, hmin, h4⟩ := hallowed
    obtain ⟨s, hfind⟩ := exists_findChild_of_indexOf hci
    rw [h4] at hmin
    obtain ⟨b', p', hok, hne, hb', hall⟩ := h.lastChild hfind h4 hmin
    refine ⟨n, .left b' p', ?_, h.meets_read rfl rfl ⟨hne, hb', hall⟩ trivial⟩
    rw [exec, hok]
    rfl
  | begin =>
    obtain ⟨e, hok, he⟩ := h.begin
    refine ⟨n, .position (some e), ?_, h.meets_read rfl rfl ⟨rfl, he.leastIn⟩ he.positionIn⟩
    rw [exec, hok]
    rfl
  | last =>
    obtain ⟨e, hok, he⟩ := h.last
    refine ⟨n, .position (some e), ?_, h.meets_read rfl rfl ⟨rfl, he.greatestIn⟩ he.positionIn⟩
    rw [exec, hok]
    rfl
  | next b ci =>
    obtain ⟨s, hfind⟩ := exists_findChild_of_indexOf hallowed
    obtain ⟨e, hok, he⟩ := h.next hfind
    refine ⟨n, .position e, ?_, h.meets_read rfl rfl he.leastIn he.positionIn⟩
    rw [exec, hok]
    rfl
  | prior b ci =>
    obtain ⟨s, hfind⟩ := exists_findChild_of_indexOf hallowed
    obtain ⟨e, hok, he⟩ := h.prior hfind
    refine ⟨n, .position e, ?_, h.meets_read rfl rfl he.greatestIn he.positionIn⟩
    rw [exec, hok]
    rfl
  | gteKeyByte b =>
    have he := h.gteKeyByte b
    refine ⟨n, .position (n.gteKeyByte b), ?_, h.meets_read rfl rfl he.leastIn he.positionIn⟩
    rw [exec, h.scanKeys]
    rfl
  | lteKeyByte b =>
    have he := h.lteKeyByte b
    refine ⟨n, .position (n.lteKeyByte b), ?_, h.meets_read rfl rfl he.greatestIn he.positionIn⟩
    rw [exec, h.scanKeys]
    rfl
  | deleteSubtree =>
    obtain ⟨ps, hok, hps⟩ := h.deleteSubtree
    refine ⟨n, .visited ps, ?_, h.meets_read rfl rfl hps trivial⟩
    rw [exec, hok]
    rfl

/-! ## 4. Sequences of calls -/

theorem Rep.meets_calls {n : INode P} {f : ByteMap P} (h : n.Rep f) (calls : List (NodeCall P)) :
    n.Refines f calls := by
  induction calls generalizing n f with
  | nil => trivial
  | cons call calls ih =>
    intro hallowed
    -- The map that a node represents is the one its lookups show.
    obtain rfl := h.child_eq
    obtain ⟨n', answer, hok, hmeets⟩ := h.wf.exec_meets call hallowed
    exact ⟨n', answer, hok, hmeets, ih hmeets.rep⟩

/-- Whatever the calls, a well-formed node of any type does what the ordered map of its children
does, and no access leaves its array. -/
theorem WF.calls_refine_map {n : INode P} (h : n.WF) (calls : List (NodeCall P)) :
    n.Refines n.child calls :=
  Rep.meets_calls h calls

/-- A node with two children that gets a third one and loses the first one. -/
theorem calls_refine_map_two :
    ∃ n : INode Nat, addTwoToEmpty ⟨0, by decide⟩ 1 10 2 20 = .ok n ∧
      n.Refines n.child [.begin, .next 1 0, .addToNonfull 30 0, .remove 1 1, .last] := by
  obtain ⟨n, hok, hrep, -, -⟩ := addTwoToEmpty_spec ⟨0, by decide⟩ (show (1 : UInt8) ≠ 2 by decide) 10 20
  exact ⟨n, hok, WF.calls_refine_map hrep.wf _⟩

end INode

end Unodb
