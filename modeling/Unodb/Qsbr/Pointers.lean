import Unodb.Node.Layout
import Unodb.Util.Runs
import Unodb.Util.Slots

/-!
# Active pointers (`qsbr_ptr`)

In debug builds every `qsbr_ptr` object registers its pointer with its thread, so that a quiescent
state that comes too early is found.  Objects are numbered in the order of their construction;
temporaries and parameters that are passed by value are objects too.
-/

namespace Unodb

/-- `const void*`, with `nullptr` as 0. -/
abbrev RawPtr := BitVec 64

/-- The `qsbr_ptr` objects of one thread, and what its `qsbr_per_thread` records for them. -/
structure Pointers where
  /-- The `ptr` of each object, `none` once the object is destroyed. -/
  objects : List (Option RawPtr)
  activePtrs : Multiset RawPtr
  paused : Bool
deriving DecidableEq

/-- What a member of `qsbr_ptr` does. -/
abbrev PtrM := StateT Pointers (Except Fault)

namespace Pointers

/-- A thread before its first object. -/
def initial : Pointers := ⟨[], 0, false⟩

/-- `qsbr_per_thread::register_active_ptr`. -/
def registerInThread (ptr : RawPtr) : PtrM Unit := fun s => do
  assertThat (ptr ≠ 0)
  assertThat (s.paused = false)
  return ((), { s with activePtrs := ptr ::ₘ s.activePtrs })

/-- `qsbr_per_thread::unregister_active_ptr`. -/
def unregisterInThread (ptr : RawPtr) : PtrM Unit := fun s => do
  assertThat (ptr ≠ 0)
  assertThat (s.paused = false)
  assertThat (ptr ∈ s.activePtrs)
  return ((), { s with activePtrs := s.activePtrs.erase ptr })

/-- `qsbr_ptr_base::register_active_ptr`. -/
def registerActivePtr (ptr : RawPtr) : PtrM Unit := do
  if ptr ≠ 0 then registerInThread ptr

/-- `qsbr_ptr_base::unregister_active_ptr`. -/
def unregisterActivePtr (ptr : RawPtr) : PtrM Unit := do
  if ptr ≠ 0 then unregisterInThread ptr

/-- The debug checks of `qsbr_per_thread::quiescent`. -/
def quiescent (s : Pointers) : Except Fault Unit := do
  assertThat (s.paused = false)
  assertThat (s.activePtrs = 0)

/-! ## 1. Special members -/

/-- An object starts to live with a value in `ptr`. -/
def newObject (ptr : RawPtr) : PtrM Nat := fun s =>
  .ok (s.objects.length, { s with objects := s.objects ++ [some ptr] })

/-- `get`.  The object has to be alive. -/
def get (this : Nat) : PtrM RawPtr := fun s =>
  match s.objects[this]? with
  | some (some ptr) => .ok (ptr, s)
  | _ => .error .badAccess

/-- `ptr` of an object gets a value. -/
def setPtr (this : Nat) (ptr : RawPtr) : PtrM Unit := fun s =>
  .ok ((), { s with objects := s.objects.set this (some ptr) })

/-- An object is gone. -/
def endLifetime (this : Nat) : PtrM Unit := fun s =>
  .ok ((), { s with objects := s.objects.set this none })

/-- `std::exchange(other.ptr, nullptr)`. -/
def exchange (other : Nat) : PtrM RawPtr := do
  let ptr ← get other
  setPtr other 0
  -- Nothing is registered or unregistered: the value has only moved to another object.
  return ptr

/-- The default constructor. -/
def construct : PtrM Nat := newObject 0

/-- The constructor from a raw pointer. -/
def constructFrom (ptr : RawPtr) : PtrM Nat := do
  let this ← newObject ptr
  registerActivePtr ptr
  return this

/-- The copy constructor. -/
def copyConstruct (other : Nat) : PtrM Nat := do
  let ptr ← get other
  let this ← newObject ptr
  registerActivePtr ptr
  return this

/-- The move constructor. -/
def moveConstruct (other : Nat) : PtrM Nat := do
  newObject (← exchange other)

/-- The destructor. -/
def destruct (this : Nat) : PtrM Unit := do
  unregisterActivePtr (← get this)
  endLifetime this

/-- The body of the members that give `ptr` another value, with the registry before and after. -/
def assign (this : Nat) (value : PtrM RawPtr) : PtrM Unit := do
  unregisterActivePtr (← get this)
  setPtr this (← value)
  registerActivePtr (← get this)

/-- Copy assignment. -/
def copyAssign (this other : Nat) : PtrM Unit := do
  -- Nothing happens to an object that is assigned to itself.
  if this = other then return
  assign this (get other)

/-- Move assignment, which does not look whether the two objects are one. -/
def moveAssign (this other : Nat) : PtrM Unit := do
  unregisterActivePtr (← get this)
  -- The value of the other object is registered already. If the two are one, it is not any more.
  setPtr this (← exchange other)

/-! ## 2. Operators

`size` is the size of the elements pointed to, and `elided` says that a local variable that is
returned is constructed in the place of the result. -/

variable (size : Nat)

/-- `ptr + n`. -/
def offsetBy (ptr : RawPtr) (n : Int) : RawPtr := ptr + BitVec.ofInt 64 (n * size)

/-- `operator++()`. -/
def preIncrement (this : Nat) : PtrM Unit := assign this do return offsetBy size (← get this) 1

/-- `operator--()`. -/
def preDecrement (this : Nat) : PtrM Unit := assign this do return offsetBy size (← get this) (-1)

/-- `operator+=`. -/
def addAssign (this : Nat) (n : Int) : PtrM Unit :=
  assign this do return offsetBy size (← get this) n

/-- `operator-=`. -/
def subAssign (this : Nat) (n : Int) : PtrM Unit :=
  assign this do return offsetBy size (← get this) (-n)

/-- A local variable is returned and goes out of scope. -/
def returnLocal (elided : Bool) (result : Nat) : PtrM Nat := do
  if elided then return result
  let returned ← moveConstruct result
  destruct result
  return returned

/-- A `const` local variable is returned, which cannot be moved from. -/
def returnConstLocal (elided : Bool) (result : Nat) : PtrM Nat := do
  if elided then return result
  let returned ← copyConstruct result
  destruct result
  return returned

/-- The postfix operators, by what they do to the object. -/
def postfixOf (elided : Bool) (this : Nat) (change : PtrM Unit) : PtrM Nat := do
  let result ← copyConstruct this
  change
  returnConstLocal elided result

/-- `operator++(int)`. -/
def postIncrement (elided : Bool) (this : Nat) : PtrM Nat :=
  postfixOf elided this (preIncrement size this)

/-- `operator--(int)`. -/
def postDecrement (elided : Bool) (this : Nat) : PtrM Nat :=
  postfixOf elided this (preDecrement size this)

/-- The operators that change a copy of the object and return it. -/
def changedCopy (elided : Bool) (this : Nat) (change : Nat → PtrM Unit) : PtrM Nat := do
  let result ← copyConstruct this
  change result
  returnLocal elided result

/-- `operator+(difference_type)`. -/
def add (elided : Bool) (this : Nat) (n : Int) : PtrM Nat :=
  changedCopy elided this fun result => addAssign size result n

/-- `operator-(difference_type)`. -/
def sub (elided : Bool) (this : Nat) (n : Int) : PtrM Nat :=
  changedCopy elided this fun result => subAssign size result n

/-- How a parameter that is passed by value gets its object. -/
inductive Argument where
  | copied (other : Nat)
  | moved (other : Nat)
  /-- The object that another operator has returned is the parameter. -/
  | returned (other : Nat)
deriving DecidableEq, Repr

/-- The object that an argument comes from. -/
def Argument.source : Argument → Nat
  | .copied other | .moved other | .returned other => other

/-- The object of a parameter that is passed by value. -/
def Argument.object : Argument → PtrM Nat
  | .copied other => copyConstruct other
  | .moved other => moveConstruct other
  | .returned other => return other

/-- A call with one parameter that is passed by value. -/
def passing {α : Type} (argument : Argument) (call : Nat → PtrM α) : PtrM α := do
  -- The parameter lives until the call has returned.
  let other ← argument.object
  let result ← call other
  destruct other
  return result

/-- `operator+(difference_type, qsbr_ptr)`. -/
def addFriend (elided : Bool) (n : Int) (argument : Argument) : PtrM Nat :=
  passing argument fun other => add size elided other n

/-- The body of the operators that only read the two pointers. -/
def reading {α : Type} (op : RawPtr → RawPtr → α) (this : Nat) (argument : Argument) : PtrM α :=
  passing argument fun other => do return op (← get this) (← get other)

/-- `operator-(qsbr_ptr)`. -/
def distance (this : Nat) (argument : Argument) : PtrM Int :=
  reading (fun p q => (p - q).toInt / size) this argument

/-- `operator==`. -/
def eq (this : Nat) (argument : Argument) : PtrM Bool := reading (fun p q => p == q) this argument

/-- `operator<=`. -/
def le (this : Nat) (argument : Argument) : PtrM Bool := reading (fun p q => p.ule q) this argument

/-- `operator>=`. -/
def ge (this : Nat) (argument : Argument) : PtrM Bool := reading (fun p q => q.ule p) this argument

/-- `operator<`. -/
def lt (this : Nat) (argument : Argument) : PtrM Bool := reading (fun p q => p.ult q) this argument

/-- `operator>`. -/
def gt (this : Nat) (argument : Argument) : PtrM Bool := reading (fun p q => q.ult p) this argument

/-! ## 3. Runs -/

/-- The object is alive. -/
def Live (objects : List (Option RawPtr)) (i : Nat) : Prop := ∃ ptr, objects[i]? = some (some ptr)

end Pointers

open Pointers

/-- The calls that a thread makes on its objects. -/
inductive PtrCall where
  | construct
  | constructFrom (ptr : RawPtr)
  | copyConstruct (other : Nat)
  | moveConstruct (other : Nat)
  | destruct (this : Nat)
  | copyAssign (this other : Nat)
  | moveAssign (this other : Nat)
  | preIncrement (this : Nat)
  | preDecrement (this : Nat)
  | postIncrement (elided : Bool) (this : Nat)
  | postDecrement (elided : Bool) (this : Nat)
  | addAssign (this : Nat) (n : Int)
  | subAssign (this : Nat) (n : Int)
  | add (elided : Bool) (this : Nat) (n : Int)
  | sub (elided : Bool) (this : Nat) (n : Int)
  | addFriend (elided : Bool) (n : Int) (argument : Argument)
  | distance (this : Nat) (argument : Argument)
  | eq (this : Nat) (argument : Argument)
  | le (this : Nat) (argument : Argument)
  | ge (this : Nat) (argument : Argument)
  | lt (this : Nat) (argument : Argument)
  | gt (this : Nat) (argument : Argument)

namespace PtrCall

/-- A call, without its result. -/
def run (size : Nat) : PtrCall → PtrM Unit
  | construct => discard Pointers.construct
  | constructFrom ptr => discard (Pointers.constructFrom ptr)
  | copyConstruct other => discard (Pointers.copyConstruct other)
  | moveConstruct other => discard (Pointers.moveConstruct other)
  | destruct this => Pointers.destruct this
  | copyAssign this other => Pointers.copyAssign this other
  | moveAssign this other => Pointers.moveAssign this other
  | preIncrement this => Pointers.preIncrement size this
  | preDecrement this => Pointers.preDecrement size this
  | postIncrement elided this => discard (Pointers.postIncrement size elided this)
  | postDecrement elided this => discard (Pointers.postDecrement size elided this)
  | addAssign this n => Pointers.addAssign size this n
  | subAssign this n => Pointers.subAssign size this n
  | add elided this n => discard (Pointers.add size elided this n)
  | sub elided this n => discard (Pointers.sub size elided this n)
  | addFriend elided n argument => discard (Pointers.addFriend size elided n argument)
  | distance this argument => discard (Pointers.distance size this argument)
  | eq this argument => discard (Pointers.eq this argument)
  | le this argument => discard (Pointers.le this argument)
  | ge this argument => discard (Pointers.ge this argument)
  | lt this argument => discard (Pointers.lt this argument)
  | gt this argument => discard (Pointers.gt this argument)

/-- The objects that a call is made on. -/
def operands : PtrCall → List Nat
  | construct | constructFrom _ => []
  | copyConstruct other | moveConstruct other => [other]
  | destruct this | preIncrement this | preDecrement this => [this]
  | postIncrement _ this | postDecrement _ this => [this]
  | addAssign this _ | subAssign this _ | add _ this _ | sub _ this _ => [this]
  | copyAssign this other | moveAssign this other => [this, other]
  | addFriend _ _ argument => [argument.source]
  | distance this argument | eq this argument | le this argument => [this, argument.source]
  | ge this argument | lt this argument | gt this argument => [this, argument.source]

/-- All objects of the call are alive. -/
def Legal (call : PtrCall) (s : Pointers) : Prop := ∀ i ∈ call.operands, Live s.objects i

/-- An object that is not null is moved to itself. -/
def MovesOntoItself (call : PtrCall) (s : Pointers) : Prop :=
  ∃ i ptr, call = .moveAssign i i ∧ s.objects[i]? = some (some ptr) ∧ ptr ≠ 0

end PtrCall

namespace Pointers

/-- The registry holds what the objects hold. -/
def Registered (s : Pointers) : Prop := s.activePtrs = Slots.held 0 s.objects

/-- The state that the objects alone determine. -/
def tracking (objects : List (Option RawPtr)) : Pointers := ⟨objects, Slots.held 0 objects, false⟩

/-! ## 4. What each call leads to -/

variable {objects : List (Option RawPtr)} {this other : Nat} {ptr q : RawPtr} {size : Nat}

theorem bind_run {α β : Type} {m : PtrM α} {f : α → PtrM β} {s s' : Pointers} {a : α}
    (h : m s = .ok (a, s')) : (m >>= f) s = f a s' := by
  change (m s >>= fun r => f r.1 r.2) = _
  rw [h]
  rfl

theorem discard_run {α : Type} {m : PtrM α} {s s' : Pointers} {a : α} (h : m s = .ok (a, s')) :
    discard m s = .ok ((), s') := by
  change (m s >>= fun r => .ok ((), r.2)) = _
  rw [h]
  rfl

theorem registerActivePtr_run (s : Pointers) (h : s.paused = false) :
    registerActivePtr ptr s =
      .ok ((), { s with activePtrs := Slots.single 0 (some ptr) + s.activePtrs }) := by
  unfold registerActivePtr
  by_cases hptr : ptr = 0
  · rw [if_neg (not_not.mpr hptr), hptr, Slots.single_null, zero_add]
    rfl
  · rw [if_pos hptr, Slots.single_of_ne hptr]
    unfold registerInThread
    rw [assertThat_pos hptr, assertThat_pos h]
    rfl

theorem unregisterActivePtr_run (s : Pointers) (h : s.paused = false)
    (hle : Slots.single 0 (some ptr) ≤ s.activePtrs) :
    unregisterActivePtr ptr s =
      .ok ((), { s with activePtrs := s.activePtrs - Slots.single 0 (some ptr) }) := by
  unfold unregisterActivePtr
  by_cases hptr : ptr = 0
  · rw [if_neg (not_not.mpr hptr), hptr, Slots.single_null, tsub_zero]
    rfl
  · rw [if_pos hptr]
    rw [Slots.single_of_ne hptr] at hle ⊢
    unfold unregisterInThread
    rw [assertThat_pos hptr, assertThat_pos h, assertThat_pos (Multiset.singleton_le.mp hle),
      Multiset.sub_singleton]
    rfl

theorem get_run {s : Pointers} (h : s.objects[this]? = some (some ptr)) :
    get this s = .ok (ptr, s) := by
  unfold get
  rw [h]

theorem exchange_run {s : Pointers} (h : s.objects[other]? = some (some ptr)) :
    exchange other s = .ok (ptr, { s with objects := s.objects.set other (some 0) }) := by
  unfold exchange
  rw [bind_run (get_run h)]
  rfl

/-- A member takes the pointer of its object from the registry, sets `ptr`, and registers again. -/
theorem unregister_run (h : objects[this]? = some (some ptr)) :
    unregisterActivePtr ptr (tracking objects) =
      .ok ((), ⟨objects, Slots.held 0 objects - Slots.single 0 (some ptr), false⟩) :=
  unregisterActivePtr_run (tracking objects) rfl (Slots.single_le_held h)

theorem construct_run :
    construct (tracking objects) = .ok (objects.length, tracking (objects ++ [some 0])) := by
  simp [construct, newObject, tracking]

theorem constructFrom_run :
    constructFrom ptr (tracking objects) =
      .ok (objects.length, tracking (objects ++ [some ptr])) := by
  unfold constructFrom
  rw [bind_run (a := objects.length) rfl, bind_run (registerActivePtr_run _ rfl)]
  change Except.ok (objects.length, (⟨objects ++ [some ptr],
    Slots.single 0 (some ptr) + Slots.held 0 objects, false⟩ : Pointers)) = _
  rw [tracking, Slots.held_append, Slots.held_cons, Slots.held_nil, add_zero, add_comm]

theorem copyConstruct_run (h : objects[other]? = some (some ptr)) :
    copyConstruct other (tracking objects) =
      .ok (objects.length, tracking (objects ++ [some ptr])) := by
  unfold copyConstruct
  rw [bind_run (get_run h)]
  exact constructFrom_run

theorem moveConstruct_run (h : objects[other]? = some (some ptr)) :
    moveConstruct other (tracking objects) =
      .ok (objects.length, tracking (objects.set other (some 0) ++ [some ptr])) := by
  have hheld : Slots.held 0 (objects.set other (some 0)) + Slots.single 0 (some ptr) =
      Slots.held 0 objects := by
    rw [Slots.held_set h, Slots.single_null, zero_add]
    exact tsub_add_cancel_of_le (Slots.single_le_held h)
  unfold moveConstruct
  rw [bind_run (exchange_run h)]
  unfold newObject tracking
  rw [List.length_set, Slots.held_append, Slots.held_cons, Slots.held_nil, add_zero, hheld]

theorem destruct_run (h : objects[this]? = some (some ptr)) :
    destruct this (tracking objects) = .ok ((), tracking (objects.set this none)) := by
  unfold destruct
  rw [bind_run (get_run h), bind_run (unregister_run h)]
  simp [endLifetime, tracking, Slots.held_set h]

theorem assign_run {value : PtrM RawPtr} (h : objects[this]? = some (some ptr))
    (hvalue : ∀ s : Pointers, s.objects = objects → value s = .ok (q, s)) :
    assign this value (tracking objects) = .ok ((), tracking (objects.set this (some q))) := by
  have hlt : this < objects.length := (List.getElem?_eq_some_iff.mp h).1
  have hq : (objects.set this (some q))[this]? = some (some q) := List.getElem?_set_self hlt
  unfold assign
  rw [bind_run (get_run h), bind_run (unregister_run h), bind_run (hvalue _ rfl)]
  rw [bind_run (a := ()) rfl, bind_run (get_run hq), registerActivePtr_run _ rfl]
  simp [tracking, Slots.held_set h]

theorem copyAssign_run (hthis : objects[this]? = some (some ptr))
    (hother : objects[other]? = some (some q)) :
    copyAssign this other (tracking objects) = .ok ((), tracking (objects.set this (some q))) := by
  unfold copyAssign
  by_cases heq : this = other
  · -- The registry is left alone, as is the object.
    subst heq
    obtain ⟨hlt, hget⟩ := List.getElem?_eq_some_iff.mp hother
    rw [if_pos rfl, ← hget, List.set_getElem_self]
    rfl
  · rw [if_neg heq]
    exact assign_run hthis fun s hs => get_run (hs ▸ hother)

theorem moveAssign_run (hthis : objects[this]? = some (some ptr))
    (hother : objects[other]? = some (some q)) (hself : this = other → ptr = 0) :
    moveAssign this other (tracking objects) =
      .ok ((), tracking ((objects.set other (some 0)).set this (some q))) := by
  unfold moveAssign
  rw [bind_run (get_run hthis), bind_run (unregister_run hthis), bind_run (exchange_run hother)]
  unfold setPtr tracking
  congr 3
  by_cases heq : this = other
  · -- The null pointer is exchanged with itself.
    subst heq
    obtain rfl : ptr = q := by simpa [hthis] using hother
    obtain rfl := hself rfl
    obtain ⟨hlt, hget⟩ := List.getElem?_eq_some_iff.mp hother
    rw [← hget, List.set_set, List.set_getElem_self, hget, Slots.single_null, tsub_zero]
  · have hthis' : (objects.set other (some 0))[this]? = some (some ptr) := by
      rwa [List.getElem?_set_ne (Ne.symm heq)]
    have hle : Slots.single 0 (some ptr) ≤ Slots.held 0 (objects.set other (some 0)) :=
      Slots.single_le_held hthis'
    have hheld : Slots.held 0 objects =
        Slots.single 0 (some q) + Slots.held 0 (objects.set other (some 0)) := by
      rw [Slots.held_set hother, Slots.single_null, zero_add]
      exact (add_tsub_cancel_of_le (Slots.single_le_held hother)).symm
    rw [Slots.held_set hthis', hheld]
    exact add_tsub_assoc_of_le hle _

/-- The pointer of an object that is moved to itself is no longer registered. -/
theorem moveAssign_self_run (h : objects[this]? = some (some ptr)) :
    moveAssign this this (tracking objects) =
      .ok ((), { tracking objects with
        activePtrs := Slots.held 0 objects - Slots.single 0 (some ptr) }) := by
  obtain ⟨hlt, hget⟩ := List.getElem?_eq_some_iff.mp h
  unfold moveAssign
  rw [bind_run (get_run h), bind_run (unregister_run h), bind_run (exchange_run h)]
  unfold setPtr tracking
  rw [← hget, List.set_set, List.set_getElem_self]

/-! ## 5. Operators -/

theorem Live.append {i : Nat} (h : Live objects i) (objects' : List (Option RawPtr)) :
    Live (objects ++ objects') i := by
  obtain ⟨ptr, h⟩ := h
  exact ⟨ptr, by rw [List.getElem?_append_left (List.getElem?_eq_some_iff.mp h).1, h]⟩

theorem Live.set {i j : Nat} (h : Live objects i) (q : RawPtr) :
    Live (objects.set j (some q)) i := by
  obtain ⟨ptr, h⟩ := h
  by_cases hij : j = i
  · exact ⟨q, by rw [hij, List.getElem?_set_self (List.getElem?_eq_some_iff.mp h).1]⟩
  · exact ⟨ptr, by rw [List.getElem?_set_ne hij, h]⟩

theorem Live.destroy {i j : Nat} (h : Live objects i) (hij : j ≠ i) :
    Live (objects.set j none) i := by
  obtain ⟨ptr, h⟩ := h
  exact ⟨ptr, by rw [List.getElem?_set_ne hij, h]⟩

theorem live_last (objects : List (Option RawPtr)) (q : RawPtr) :
    (objects ++ [some q])[objects.length]? = some (some q) := List.getElem?_concat_length

/-- The call succeeds with the registry in step, and with such a result and such objects. -/
def Leads {α : Type} (m : PtrM α) (objects : List (Option RawPtr))
    (P : α → List (Option RawPtr) → Prop) : Prop :=
  ∃ a objects', m (tracking objects) = .ok (a, tracking objects') ∧ P a objects'

namespace Leads

variable {α β : Type} {m : PtrM α} {f : α → PtrM β} {a : α} {objects' : List (Option RawPtr)}
  {P P' : α → List (Option RawPtr) → Prop} {Q : β → List (Option RawPtr) → Prop}

theorem of_run (h : m (tracking objects) = .ok (a, tracking objects')) (hP : P a objects') :
    Leads m objects P := ⟨a, objects', h, hP⟩

theorem pure (h : P a objects) : Leads (Pure.pure a) objects P := of_run rfl h

theorem bind (h : Leads m objects P) (hf : ∀ a objects', P a objects' → Leads (f a) objects' Q) :
    Leads (m >>= f) objects Q := by
  obtain ⟨a, objects', hrun, hP⟩ := h
  obtain ⟨b, objects'', hrun', hQ⟩ := hf a objects' hP
  exact ⟨b, objects'', (bind_run hrun).trans hrun', hQ⟩

/-- The state after the first part is known. -/
theorem after (h : m (tracking objects) = .ok (a, tracking objects'))
    (hf : Leads (f a) objects' Q) : Leads (m >>= f) objects Q :=
  bind (of_run (P := fun b objects'' => b = a ∧ objects'' = objects') h ⟨rfl, rfl⟩) fun _ _ hab =>
    hab.1 ▸ hab.2 ▸ hf

theorem mono (h : Leads m objects P) (himp : ∀ a objects', P a objects' → P' a objects') :
    Leads m objects P' := by
  obtain ⟨a, objects', hrun, hP⟩ := h
  exact ⟨a, objects', hrun, himp a objects' hP⟩

end Leads

/-- Of the objects, at most one is gone. -/
def Spares (gone : Nat) (objects objects' : List (Option RawPtr)) : Prop :=
  ∀ i, gone ≠ i → Live objects i → Live objects' i

theorem returnLocal_leads (elided : Bool) (h : objects[this]? = some (some ptr)) :
    Leads (returnLocal elided this) objects fun _ => Spares this objects := by
  unfold returnLocal
  cases elided with
  | true => exact .pure fun i _ hi => hi
  | false =>
    have hnull : (objects.set this (some 0) ++ [some ptr])[this]? = some (some 0) := by
      have hlt : this < objects.length := (List.getElem?_eq_some_iff.mp h).1
      rw [List.getElem?_append_left (by simpa using hlt), List.getElem?_set_self hlt]
    refine .after (moveConstruct_run h) (.after (destruct_run hnull) (.pure ?_))
    intro i hne hi
    exact ((hi.set 0).append _).destroy hne

theorem returnConstLocal_leads (elided : Bool) (h : objects[this]? = some (some ptr)) :
    Leads (returnConstLocal elided this) objects fun _ => Spares this objects := by
  unfold returnConstLocal
  cases elided with
  | true => exact .pure fun i _ hi => hi
  | false =>
    have hstill : (objects ++ [some ptr])[this]? = some (some ptr) := by
      rw [List.getElem?_append_left (List.getElem?_eq_some_iff.mp h).1, h]
    refine .after (copyConstruct_run h) (.after (destruct_run hstill) (.pure ?_))
    intro i hne hi
    exact (hi.append _).destroy hne

/-- A member that only replaces `ptr` by what it computes from it. -/
theorem assign_map_run {f : RawPtr → RawPtr} (h : objects[this]? = some (some ptr)) :
    assign this (do return f (← get this)) (tracking objects) =
      .ok ((), tracking (objects.set this (some (f ptr)))) :=
  assign_run h fun s hs => by
    rw [bind_run (get_run (hs ▸ h))]
    rfl

theorem postfixOf_leads {f : RawPtr → RawPtr} (elided : Bool)
    (h : objects[this]? = some (some ptr)) :
    Leads (postfixOf elided this (assign this do return f (← get this))) objects
      fun _ _ => True := by
  have hlt : this < objects.length := (List.getElem?_eq_some_iff.mp h).1
  have hthis : (objects ++ [some ptr])[this]? = some (some ptr) := by
    rw [List.getElem?_append_left hlt, h]
  have hresult : ((objects ++ [some ptr]).set this (some (f ptr)))[objects.length]? =
      some (some ptr) := by
    rw [List.getElem?_set_ne (by omega), live_last]
  exact .after (copyConstruct_run h) (.after (assign_map_run hthis)
    ((returnConstLocal_leads elided hresult).mono fun _ _ _ => trivial))

theorem changedCopy_leads {f : RawPtr → RawPtr} (elided : Bool) (h : Live objects this) :
    Leads (changedCopy elided this fun result => assign result do return f (← get result)) objects
      fun _ objects' => ∀ i, Live objects i → Live objects' i := by
  obtain ⟨ptr, h⟩ := h
  have hcopy := live_last objects ptr
  have hresult : ((objects ++ [some ptr]).set objects.length (some (f ptr)))[objects.length]? =
      some (some (f ptr)) := List.getElem?_set_self (by simp)
  refine .after (copyConstruct_run h) (.after (assign_map_run hcopy)
    ((returnLocal_leads elided hresult).mono fun _ objects' hspares i hi => ?_))
  have hlt : i < objects.length := (List.getElem?_eq_some_iff.mp hi.choose_spec).1
  exact hspares i (by omega) ((hi.append _).set _)

/-! ## 6. Parameters passed by value -/

theorem Argument.object_leads (argument : Argument) (h : Live objects argument.source) :
    Leads argument.object objects fun other objects' =>
      Live objects' other ∧ ∀ i, Live objects i → Live objects' i := by
  obtain ⟨ptr, h⟩ := h
  cases argument with
  | copied other =>
    exact .of_run (copyConstruct_run h) ⟨⟨ptr, live_last _ _⟩, fun i hi => hi.append _⟩
  | moved other =>
    have hnew := live_last (objects.set other (some 0)) ptr
    rw [List.length_set] at hnew
    exact .of_run (moveConstruct_run h) ⟨⟨ptr, hnew⟩, fun i hi => (hi.set 0).append _⟩
  | returned other => exact .pure ⟨⟨ptr, h⟩, fun i hi => hi⟩

/-- A call that leaves its parameter alive can be made. -/
theorem passing_leads {α : Type} {argument : Argument} {call : Nat → PtrM α}
    (h : Live objects argument.source)
    (hcall : ∀ other objects', Live objects' other → (∀ i, Live objects i → Live objects' i) →
      Leads (call other) objects' fun _ objects'' => Live objects'' other) :
    Leads (passing argument call) objects fun _ _ => True := by
  refine .bind (argument.object_leads h) fun other objects' ⟨hother, hlive⟩ => ?_
  refine .bind (hcall other objects' hother hlive) fun result objects'' ⟨ptr, hstill⟩ => ?_
  exact .after (destruct_run hstill) (.pure trivial)

theorem addFriend_leads {argument : Argument} (elided : Bool) (n : Int)
    (h : Live objects argument.source) :
    Leads (addFriend size elided n argument) objects fun _ _ => True :=
  passing_leads h fun other _ hother _ =>
    (changedCopy_leads elided hother).mono fun _ _ hlive => hlive other hother

theorem reading_leads {α : Type} {op : RawPtr → RawPtr → α} {argument : Argument}
    (hthis : Live objects this) (h : Live objects argument.source) :
    Leads (reading op this argument) objects fun _ _ => True := by
  refine passing_leads h fun other objects' hother hlive => ?_
  obtain ⟨p, hp⟩ := hlive this hthis
  obtain ⟨q, hq⟩ := hother
  exact .after (get_run hp) (.after (get_run hq) (.pure ⟨q, hq⟩))

/-! ## 7. Every run -/

theorem Leads.run {α : Type} {m : PtrM α} {P : α → List (Option RawPtr) → Prop}
    (h : Leads m objects P) : Leads (discard m) objects fun _ _ => True := by
  obtain ⟨a, objects', hrun, -⟩ := h
  exact .of_run (discard_run hrun) trivial

end Pointers

open Pointers

namespace PtrCall

variable {objects : List (Option RawPtr)} {size : Nat} {call : PtrCall}

/-- A call on living objects succeeds and keeps the registry in step. -/
theorem run_leads (size : Nat) (hlegal : call.Legal (tracking objects))
    (hself : ¬ call.MovesOntoItself (tracking objects)) :
    Leads (call.run size) objects fun _ _ => True := by
  have hlive : ∀ i ∈ call.operands, Live objects i := hlegal
  cases call with
  | construct => exact .of_run (discard_run construct_run) trivial
  | constructFrom ptr => exact .of_run (discard_run constructFrom_run) trivial
  | copyConstruct other =>
    obtain ⟨q, hother⟩ := hlive other (by simp [operands])
    exact .of_run (discard_run (copyConstruct_run hother)) trivial
  | moveConstruct other =>
    obtain ⟨q, hother⟩ := hlive other (by simp [operands])
    exact .of_run (discard_run (moveConstruct_run hother)) trivial
  | destruct this =>
    obtain ⟨ptr, hthis⟩ := hlive this (by simp [operands])
    exact .of_run (destruct_run hthis) trivial
  | copyAssign this other =>
    obtain ⟨ptr, hthis⟩ := hlive this (by simp [operands])
    obtain ⟨q, hother⟩ := hlive other (by simp [operands])
    exact .of_run (copyAssign_run hthis hother) trivial
  | moveAssign this other =>
    obtain ⟨ptr, hthis⟩ := hlive this (by simp [operands])
    obtain ⟨q, hother⟩ := hlive other (by simp [operands])
    refine .of_run (moveAssign_run hthis hother fun heq => ?_) trivial
    by_contra hne
    exact hself ⟨this, ptr, by rw [heq], hthis, hne⟩
  | preIncrement this | preDecrement this | addAssign this n | subAssign this n =>
    obtain ⟨ptr, hthis⟩ := hlive this (by simp [operands])
    exact .of_run (assign_map_run hthis) trivial
  | postIncrement elided this | postDecrement elided this =>
    obtain ⟨ptr, hthis⟩ := hlive this (by simp [operands])
    exact (postfixOf_leads elided hthis).run
  | add elided this n | sub elided this n =>
    exact (changedCopy_leads elided (hlive this (by simp [operands]))).run
  | addFriend elided n argument =>
    exact (addFriend_leads elided n (hlive argument.source (by simp [operands]))).run
  | distance this argument | eq this argument | le this argument | ge this argument
  | lt this argument | gt this argument =>
    have hthis := hlive this (by simp [operands])
    exact (reading_leads hthis (hlive argument.source (by simp [operands]))).run

/-- A call on living objects in a thread that runs. -/
def Step (size : Nat) (s : Pointers) (call : PtrCall) (s' : Pointers) : Prop :=
  call.Legal s ∧ call.run size s = .ok ((), s')

/-- The calls that do not move an object to itself. -/
def PlainStep (size : Nat) (s : Pointers) (call : PtrCall) (s' : Pointers) : Prop :=
  call.Step size s s' ∧ ¬ call.MovesOntoItself s

theorem PlainStep.tracking {s s' : Pointers} (hs : ∃ objects, s = tracking objects)
    (h : call.PlainStep size s s') : ∃ objects, s' = Pointers.tracking objects := by
  obtain ⟨objects, rfl⟩ := hs
  obtain ⟨⟨hlegal, hrun⟩, hself⟩ := h
  obtain ⟨_, objects', hrun', -⟩ := run_leads size hlegal hself
  rw [hrun'] at hrun
  cases hrun
  exact ⟨objects', rfl⟩

/-- The registry loses the pointer of an object that is moved to itself. -/
theorem not_registered_of_movesOntoItself {s' : Pointers}
    (hself : call.MovesOntoItself (tracking objects))
    (hrun : call.run size (tracking objects) = .ok ((), s')) : ¬ s'.Registered := by
  obtain ⟨i, ptr, rfl, hi, hne⟩ := hself
  have hi : objects[i]? = some (some ptr) := hi
  have hmove : Pointers.moveAssign i i (tracking objects) = .ok ((), s') := hrun
  rw [moveAssign_self_run hi] at hmove
  cases hmove
  have hle : Slots.single 0 (some ptr) ≤ Slots.held 0 objects := Slots.single_le_held hi
  rw [Slots.single_of_ne hne] at hle ⊢
  intro hreg
  have hcount := congrArg Multiset.card hreg
  have hcard : 0 < Multiset.card (Slots.held 0 objects) := by
    have hone := Multiset.card_le_card hle
    rwa [Multiset.card_singleton] at hone
  simp only [tracking, Multiset.card_sub hle, Multiset.card_singleton] at hcount
  omega

end PtrCall

theorem quiescent_tracking_iff {objects : List (Option RawPtr)} :
    (tracking objects).quiescent = .ok () ↔
      ∀ (i : Nat) (ptr : RawPtr), objects[i]? = some (some ptr) → ptr = 0 := by
  rw [← Slots.held_eq_zero_iff]
  unfold quiescent tracking assertThat
  simp [bind, Except.bind]

/-- Unless an object that is not null was moved to itself, the registry holds what the objects
hold, and another call keeps it so if and only if it is not such a move. -/
theorem registered_of_run (size : Nat) {calls : List PtrCall} {s : Pointers}
    (hrun : Run (fun s call s' => call.PlainStep size s s') initial calls s) :
    s.Registered ∧
      (s.quiescent = .ok () ↔
        ∀ (i : Nat) (ptr : RawPtr), s.objects[i]? = some (some ptr) → ptr = 0) ∧
      ∀ call : PtrCall, call.Legal s →
        ((∃ s', call.run size s = .ok ((), s') ∧ s'.Registered) ↔ ¬ call.MovesOntoItself s) := by
  obtain ⟨objects, rfl⟩ : ∃ objects, s = tracking objects :=
    hrun.invariant (I := fun s => ∃ objects, s = tracking objects) (fun hs h => h.tracking hs)
      ⟨[], rfl⟩
  refine ⟨rfl, quiescent_tracking_iff, fun call hlegal => ?_⟩
  constructor
  · rintro ⟨s', hcall, hreg⟩ hself
    exact PtrCall.not_registered_of_movesOntoItself hself hcall hreg
  · intro hself
    obtain ⟨_, objects', hcall, -⟩ := PtrCall.run_leads size hlegal hself
    exact ⟨_, hcall, rfl⟩

/-- One pointer is copied, the copy is moved back and compared. -/
theorem registered_of_run_copy :
    ∃ s : Pointers, s.objects = [some 8, some 0, none] ∧ s.Registered := by
  have h₁ : PtrCall.PlainStep 1 initial (.constructFrom 8) ⟨[some 8], {8}, false⟩ :=
    ⟨⟨by simp [PtrCall.Legal, PtrCall.operands], rfl⟩, by simp [PtrCall.MovesOntoItself]⟩
  have h₂ : PtrCall.PlainStep 1 ⟨[some 8], {8}, false⟩ (.copyConstruct 0)
      ⟨[some 8, some 8], {8, 8}, false⟩ :=
    ⟨⟨by simp [PtrCall.Legal, PtrCall.operands, Live], rfl⟩, by simp [PtrCall.MovesOntoItself]⟩
  have h₃ : PtrCall.PlainStep 1 ⟨[some 8, some 8], {8, 8}, false⟩ (.moveAssign 0 1)
      ⟨[some 8, some 0], {8}, false⟩ :=
    ⟨⟨by simp [PtrCall.Legal, PtrCall.operands, Live], rfl⟩, by simp [PtrCall.MovesOntoItself]⟩
  have h₄ : PtrCall.PlainStep 1 ⟨[some 8, some 0], {8}, false⟩ (.eq 0 (.copied 1))
      ⟨[some 8, some 0, none], {8}, false⟩ :=
    ⟨⟨by simp [PtrCall.Legal, PtrCall.operands, Argument.source, Live], rfl⟩,
      by simp [PtrCall.MovesOntoItself]⟩
  have hrun := Run.cons h₁ (.cons h₂ (.cons h₃ (.cons h₄ (.nil _))))
  exact ⟨_, rfl, (registered_of_run 1 hrun).1⟩

/-- A pointer that is moved to itself is lost to the registry. -/
theorem registered_of_run_fails :
    ¬ ∀ calls s, Run (fun s call s' => PtrCall.Step 1 s call s') initial calls s →
      s.Registered := by
  intro h
  have h₁ : PtrCall.Step 1 initial (.constructFrom 8) ⟨[some 8], {8}, false⟩ :=
    ⟨by simp [PtrCall.Legal, PtrCall.operands], rfl⟩
  have h₂ : PtrCall.Step 1 ⟨[some 8], {8}, false⟩ (.moveAssign 0 0) ⟨[some 8], 0, false⟩ :=
    ⟨by simp [PtrCall.Legal, PtrCall.operands, Live], rfl⟩
  have hreg := h _ _ (.cons h₁ (.cons h₂ (.nil _)))
  unfold Registered at hreg
  revert hreg
  decide

end Unodb
