import Unodb.Olc.Knowledge
import Unodb.Olc.Mirror

/-!
# Rules for the programs of a thread

How a thread that has a kit and knows something about the world may go on: one rule for each of the
actions that only read, and for those on a node of its own.
-/

namespace Unodb

/-- How a call may fail other than by an exception. -/
def Request.MayFail : Request → Fault → Prop
  | .scan, _ => True
  | _, e => e = .assertion

/-- An exception leaves the thread with nothing. -/
structure World.Kit.MayThrow (kit : World.Kit) (e : Fault) : Prop where
  exception : e.isException ∨ kit.request.MayFail e
  nothing : e.isException → kit = { request := kit.request }

namespace OlcDb

open World

/-- The program may run as one of thread `t` where the thread has the kit and `F` holds. -/
def Meets {α : Type} (K : Set (List UInt8)) (t : Nat) (kit : Kit) (F : World sizes → Prop)
    (p : OlcM sizes α)
    (Q : α → World sizes → Prop) : Prop :=
  ∀ ⦃w : World sizes⦄, Inv K w → w.Has t kit → F w → (olcRules K False).Safe t Q
    (fun e w => ∃ kit : Kit, w.Has t kit ∧ kit.MayThrow e) p w

variable {α β : Type} {K : Set (List UInt8)} {t : Nat} {kit kit' : Kit} {F G : World sizes → Prop}
  {p : OlcM sizes α} {Q : α → World sizes → Prop} {R : β → World sizes → Prop} {w w' : World sizes}

/-! ## 1. Interference -/

theorem later_inv (hlater : (olcRules K False).Later t w w') (hinv : Inv K w) : Inv K w' :=
  Discipline.Later.inv (D := olcRules K False) hinv hlater

theorem later_has (hlater : (olcRules K False).Later t w w') (hinv : Inv K w) (h : w.Has t kit) :
    w'.Has t kit :=
  Discipline.Later.keeps (D := olcRules K False) (F := fun w => w.Has t kit)
    (fun _ hframe _ hw => hw.frame hframe) hinv hlater h

theorem later_steady (hF : Steady K t F) (hlater : (olcRules K False).Later t w w')
    (hinv : Inv K w) (h : F w) : F w' :=
  Discipline.Later.keeps (D := olcRules K False)
    (fun hinv hframe hinv' hw => hF hinv hinv' hframe hw) hinv hlater h

namespace Meets

/-! ## 2. The structure of programs -/

theorem of_imp (h : Meets K t kit G p Q) (hFG : ∀ ⦃w : World sizes⦄, Inv K w → w.Has t kit → F w → G w) :
    Meets K t kit F p Q :=
  fun _ hinv hhas hF => h hinv hhas (hFG hinv hhas hF)

theorem of_exists {ι : Type} {F : ι → World sizes → Prop} (h : ∀ i, Meets K t kit (F i) p Q) :
    Meets K t kit (fun w : World sizes => ∃ i, F i w) p Q :=
  fun _ hinv hhas ⟨i, hi⟩ => h i hinv hhas hi

theorem of_pure {c : Prop} (h : c → Meets K t kit F p Q) :
    Meets K t kit (fun w : World sizes => c ∧ F w) p Q :=
  fun _ hinv hhas hw => h hw.1 hinv hhas hw.2

theorem of_false : Meets K t kit (fun _ : World sizes => False) p Q := fun _ _ _ hw => hw.elim

theorem ret {a : α} (hF : Steady K t F) (hQ : ∀ ⦃w : World sizes⦄, Inv K w → w.Has t kit → F w → Q a w) :
    Meets K t kit F (.ret a) Q :=
  fun _ hinv hhas hw _ hlater hinv' =>
    hQ hinv' (later_has hlater hinv hhas) (later_steady hF hlater hinv hw)

theorem throw {e : Fault} (hkit : kit.MayThrow e) : Meets K t kit F (.throw e) Q :=
  fun _ hinv hhas _ _ hlater _ => ⟨kit, later_has hlater hinv hhas, hkit⟩

theorem lift {x : Except Fault β} {k : β → OlcM sizes α} (hx : ∃ b, x = .ok b)
    (hok : ∀ b, x = .ok b → Meets K t kit F (k b) Q) : Meets K t kit F (Prog.lift x >>= k) Q := by
  obtain ⟨b, rfl⟩ := hx
  exact hok b rfl

theorem ite {c : Prop} [Decidable c] {q : OlcM sizes α} (hp : c → Meets K t kit F p Q)
    (hq : ¬ c → Meets K t kit F q Q) : Meets K t kit F (if c then p else q) Q := by
  split
  · rename_i hc
    exact hp hc
  · rename_i hc
    exact hq hc

theorem bind {p : OlcM sizes β} {k : β → OlcM sizes α} (hp : Meets K t kit F p R)
    (hk : ∀ b ⦃w⦄, Inv K w → R b w → (olcRules K False).Safe t Q
      (fun e w => ∃ kit : Kit, w.Has t kit ∧ kit.MayThrow e) (k b) w) :
    Meets K t kit F (p >>= k) Q :=
  fun _ hinv hhas hF => Discipline.Safe.bind
    (Discipline.Safe.mono_of_inv (hp hinv hhas hF) (fun b _ hinv' hR => hk b hinv' hR)
      fun _ _ _ he => he)

/-- One action, and what it makes of the world. -/
theorem action {f : Choice → OlcDb sizes → Option (β × OlcDb sizes)} {k : β → OlcM sizes α}
    (hF : Steady K t F)
    (h : ∀ ⦃w c b s⦄, Inv K w → w.Has t kit → F w → f c w.db = some (b, s) →
      ∃ w' kit' G, w'.db = s ∧ Inv K w' ∧ Step t w w' ∧ w'.Has t kit' ∧ G w' ∧
        Meets K t kit' G (k b) Q) : Meets K t kit F (Prog.action f >>= k) Q := by
  intro w hinv hhas hw
  refine Discipline.Safe.action fun w' hlater hinv' => ⟨fun _ => trivial, fun c =>
    ⟨fun _ => ⟨not_false, trivial⟩, fun b s hf => ?_⟩⟩
  obtain ⟨w'', kit', G, hdb, hinv'', hstep, hhas'', hG, hk⟩ :=
    h hinv' (later_has hlater hinv hhas) (later_steady hF hlater hinv hw) hf
  exact ⟨w'', hdb, hinv'', hstep, hk hinv'' hhas'' hG⟩

theorem act {f : OlcDb sizes → β × OlcDb sizes} {k : β → OlcM sizes α} (hF : Steady K t F)
    (h : ∀ ⦃w : World sizes⦄, Inv K w → w.Has t kit → F w → ∃ w' kit' G, w'.db = (f w.db).2 ∧ Inv K w' ∧
      Step t w w' ∧ w'.Has t kit' ∧ G w' ∧ Meets K t kit' G (k (f w.db).1) Q) :
    Meets K t kit F (OlcDb.act f >>= k) Q :=
  action hF fun w _ b s hinv hhas hw hf => by
    obtain ⟨rfl, rfl⟩ := Prod.mk.inj (Option.some.inj hf)
    exact h hinv hhas hw

theorem tryAct {f : Choice → OlcDb sizes → Except Fault (β × OlcDb sizes)} {k : β → OlcM sizes α}
    (hF : Steady K t F)
    (herror : ∀ ⦃w c e⦄, Inv K w → w.Has t kit → F w → f c w.db = .error e → kit.MayThrow e)
    (h : ∀ ⦃w c b s⦄, Inv K w → w.Has t kit → F w → f c w.db = .ok (b, s) →
      ∃ w' kit' G, w'.db = s ∧ Inv K w' ∧ Step t w w' ∧ w'.Has t kit' ∧ G w' ∧
        Meets K t kit' G (k b) Q) : Meets K t kit F (OlcDb.tryAct f >>= k) Q := by
  refine action hF fun w c r s hinv hhas hw hf => ?_
  cases hr : f c w.db with
  | error e =>
    rw [hr] at hf
    obtain ⟨rfl, rfl⟩ := Prod.mk.inj (Option.some.inj hf)
    exact ⟨w, kit, F, rfl, hinv, .refl t w, hhas, hw, throw (herror hinv hhas hw hr)⟩
  | ok bs =>
    rw [hr] at hf
    obtain ⟨rfl, rfl⟩ := Prod.mk.inj (Option.some.inj hf)
    exact h hinv hhas hw hr

/-! ## 3. Locks -/

theorem tryReadLock {l : Site} {k : Option CriticalSection → OlcM sizes α} (hF : Lasting K t F)
    (hsite : ∀ ⦃w⦄, F w → w.KnownSite l) (hnone : Meets K t kit F (k none) Q)
    (hsome : ∀ v, Meets K t kit (fun w : World sizes => F w ∧ w.Begun ⟨l, v⟩) (k (some ⟨l, v⟩)) Q) :
    Meets K t kit F (OlcDb.tryReadLock l >>= k) Q := by
  refine action hF.steady fun w c b s hinv hhas hw hf => ?_
  cases hl : w.db.lock l with
  | free v =>
    rw [hl] at hf
    obtain ⟨rfl, rfl⟩ := Prod.mk.inj (Option.some.inj hf)
    have hbegun : w.Begun ⟨l, v⟩ := ⟨hsite hw, by rw [hl]; exact Nat.le_refl v⟩
    exact ⟨w, kit, _, rfl, hinv, .refl t w, hhas, ⟨hw, hbegun⟩, hsome v⟩
  | obsolete =>
    rw [hl] at hf
    obtain ⟨rfl, rfl⟩ := Prod.mk.inj (Option.some.inj hf)
    exact ⟨w, kit, F, rfl, hinv, .refl t w, hhas, hw, hnone⟩
  | locked v u =>
    rw [hl] at hf
    cases hf

/-- A check, at which the thread may find that a response which changes nothing is right. -/
theorem checkWith {cs : CriticalSection} {p q : OlcM sizes α} (hF : Steady K t F)
    (hG : ∀ ⦃w : World sizes⦄, Inv K w → w.Has t kit → F w → w.db.Valid cs →
      G w ∨ ∃ r, Idle w.tree kit.request r ∧ G (w.withSaw t r))
    (hp : Meets K t kit G p Q) (hq : Meets K t kit F q Q) :
    Meets K t kit F (OlcDb.check cs >>= fun b => if b = true then p else q) Q := by
  refine act hF fun w hinv hhas hw => ?_
  by_cases hvalid : w.db.lock cs.lock = .free cs.version
  · have hnext : Meets K t kit G
        (if decide (w.db.lock cs.lock = .free cs.version) = true then p else q) Q := by
      rw [if_pos (decide_eq_true hvalid)]
      exact hp
    rcases hG hinv hhas hw hvalid with hw' | ⟨r, hidle, hw'⟩
    · exact ⟨w, kit, G, rfl, hinv, .refl t w, hhas, hw', hnext⟩
    · rw [← hhas.request] at hidle
      exact ⟨w.withSaw t r, kit, G, rfl, hinv.withSaw t r, .withSaw hidle, hhas.withSaw r, hw', hnext⟩
  · refine ⟨w, kit, F, rfl, hinv, .refl t w, hhas, hw, ?_⟩
    rw [if_neg (by simpa using hvalid)]
    exact hq

theorem check {cs : CriticalSection} {p q : OlcM sizes α} (hF : Steady K t F)
    (hG : ∀ ⦃w : World sizes⦄, Inv K w → w.Has t kit → F w → w.db.Valid cs → G w) (hp : Meets K t kit G p Q)
    (hq : Meets K t kit F q Q) :
    Meets K t kit F (OlcDb.check cs >>= fun b => if b = true then p else q) Q :=
  checkWith hF (fun _ hinv hhas hw hvalid => .inl (hG hinv hhas hw hvalid)) hp hq

/-- Two checks: if both sections are valid at the first one, the response is right, and the second one
    tells whether they were. -/
theorem checkBoth {cs cs' : CriticalSection} {p q : OlcM sizes α} {r : Response} (hF : Lasting K t F)
    (hlocks : kit.locks = []) (hbegun : ∀ ⦃w⦄, F w → w.Begun cs')
    (hidle : ∀ ⦃w : World sizes⦄, Inv K w → F w → w.Live t cs → w.Live t cs' → Idle w.tree kit.request r)
    (hp : Meets K t kit (fun w : World sizes => w.Saw t r) p Q) (hq : Meets K t kit F q Q) :
    Meets K t kit F (OlcDb.check cs >>= fun b => if b = true then
      OlcDb.check cs' >>= fun b => if b = true then p else q else q) Q := by
  have hsaw : Lasting K t fun w : World sizes => w.Begun cs' ∧ (w.Live t cs' → w.Saw t r) :=
    Lasting.live fun hinv hinv' hkeeps _ _ hsaw => lasting_saw t r hinv hinv' hkeeps hsaw
  have hagain : Meets K t kit (fun w : World sizes => F w ∧ w.Begun cs' ∧ (w.Live t cs' → w.Saw t r))
      (OlcDb.check cs' >>= fun b => if b = true then p else q) Q :=
    check (hF.and hsaw).steady (fun w _ _ hw hvalid => hw.2.2 (.inl hvalid)) hp
      (hq.of_imp fun _ _ _ hw => hw.1)
  refine checkWith hF.steady (fun w hinv hhas hw hvalid => ?_) hagain hq
  by_cases hvalid' : w.db.Valid cs'
  · have hw' : F (w.withSaw t r) := hF hinv (hinv.withSaw t r) (.withSaw w r) hw
    exact .inr ⟨r, hidle hinv hw (.inl hvalid) (.inl hvalid'), hw', hbegun hw',
      fun _ => withSaw_saw w t r⟩
  · exact .inl ⟨hw, hbegun hw, fun hlive => absurd (hhas.valid_of_live hlocks hlive) hvalid'⟩

theorem checkSaw {cs : CriticalSection} {p q : OlcM sizes α} {r : Response} (hF : Lasting K t F)
    (hidle : ∀ ⦃w : World sizes⦄, Inv K w → F w → w.db.Valid cs → Idle w.tree kit.request r)
    (hp : Meets K t kit (fun w : World sizes => w.Saw t r) p Q) (hq : Meets K t kit F q Q) :
    Meets K t kit F (OlcDb.check cs >>= fun b => if b = true then p else q) Q :=
  checkWith hF.steady
    (fun w hinv _ hw hvalid => .inr ⟨r, hidle hinv hw hvalid, withSaw_saw w t r⟩) hp hq

/-! ## 4. Reading -/

theorem loadRoot {version : Nat} {k : Option NodePtr → OlcM sizes α} (hF : Lasting K t F)
    (hbegun : ∀ ⦃w⦄, F w → w.Begun ⟨.root, version⟩)
    (hk : ∀ r, Meets K t kit (fun w : World sizes => w.AtRoot t version r) (k r) Q) :
    Meets K t kit F (OlcDb.loadRoot >>= k) Q := by
  refine act hF.steady fun w hinv hhas hw => ?_
  refine ⟨w, kit, _, rfl, hinv, .refl t w, hhas, ⟨hbegun hw, fun _ => hinv.root.symm, ?_⟩, hk _⟩
  intro p hp
  have hread : w.tree.graph.read .root = some p := hinv.root.symm.trans hp
  obtain ⟨body, hbody⟩ := hinv.tree_of_read hread
  exact hinv.known hbody

section Node

variable {κ : Type} [LawfulArtKey κ] {key : List UInt8} {parentCs nodeCs : CriticalSection}
  {sl : Slot} {slot : Radix.Slot NodePtr UInt8} {node : NodePtr} {depth : Nat} {rem : κ}
  {P N : INode NodePtr → Prop} {css : List CriticalSection} {f : INode NodePtr → β}
  {k : β → OlcM sizes α}

theorem view_eq {s : OlcDb sizes} (hcss : ∀ cs ∈ css, s.Valid cs) (c : Choice) (n : INode NodePtr) :
    s.view c css n = n := if_pos hcss

/-- A read of an inner node that other threads may know. -/
theorem reading (hF : Steady K t F) (htype : node.type ≠ .leaf)
    (hknown : ∀ ⦃w⦄, F w → w.Known node) {H : β → World sizes → Prop}
    (hH : ∀ ⦃w m r⦄, Inv K w → w.Has t kit → F w → w.db.mem.deref node = some (.inode m) →
      ((∀ cs ∈ css, w.db.Valid cs) → f m = r) → H r w)
    (hk : ∀ r, (∃ n, f n = r) → Meets K t kit (H r) (k r) Q) :
    Meets K t kit F (OlcDb.reading css node f >>= k) Q := by
  have hinode : ∀ ⦃w⦄, F w → ∃ m, w.db.mem.deref node = some (.inode m) := by
    intro w hw
    obtain ⟨⟨body, hbody⟩, -⟩ := hknown hw
    cases body with
    | leaf k v => exact absurd (Tree.deref_eq_some_iff.mp hbody).2.symm htype
    | inode m => exact ⟨m, hbody⟩
  refine tryAct hF ?_ ?_
  · intro w c e hinv hhas hw hf
    obtain ⟨m, hm⟩ := hinode hw
    rw [Tree.readInode_ok hm] at hf
    cases hf
  · intro w c b s hinv hhas hw hf
    obtain ⟨m, hm⟩ := hinode hw
    rw [Tree.readInode_ok hm] at hf
    obtain ⟨rfl, rfl⟩ := Prod.mk.inj (Except.ok.inj hf)
    refine ⟨w, kit, _, rfl, hinv, .refl t w, hhas, hH hinv hhas hw hm fun hcss => ?_, hk _ ⟨_, rfl⟩⟩
    rw [view_eq hcss]

/-- A read of the children of a node, in its own section at least. -/
theorem readKids (hG : Lasting K t G) (hlocks : kit.locks = []) (htype : node.type ≠ .leaf)
    (hf : ∀ {n n' : INode NodePtr}, n'.childrenCount = n.childrenCount → n'.layout = n.layout →
      f n' = f n)
    (hk : ∀ r, (∃ n, f n = r) → Meets K t kit (fun w : World sizes => w.AtNode t key parentCs sl
    slot node depth
      rem nodeCs P (fun n => N n ∧ f n = r) ∧ G w) (k r) Q) :
    Meets K t kit (fun w : World sizes => w.AtNode t key parentCs sl slot node depth rem nodeCs P N ∧ G w)
      (OlcDb.reading [nodeCs] node f >>= k) Q := by
  refine reading ((lasting_atNode t key parentCs sl slot node depth rem nodeCs P N).and hG).steady
    htype (fun _ hw => hw.1.known) ?_ hk
  rintro w m r hinv hhas ⟨hat, hw⟩ hm hr
  refine ⟨hat.readKids hinv hm (fun hlive => hr fun cs hcs => ?_) hf, hw⟩
  rw [List.mem_singleton.mp hcs]
  exact hhas.valid_of_live hlocks hlive

/-- A read of the prefix of a node, in its own section and that of the place. -/
theorem readPrefix (hG : Lasting K t G) (hlocks : kit.locks = []) (htype : node.type ≠ .leaf)
    (hk : ∀ r, (∃ n, f n = r) → Meets K t kit (fun w : World sizes => w.AtNode t key parentCs sl
    slot node depth
      rem nodeCs (fun n => P n ∧ f n = r) N ∧ G w) (k r) Q) :
    Meets K t kit (fun w : World sizes => w.AtNode t key parentCs sl slot node depth rem nodeCs P N ∧ G w)
      (OlcDb.reading [parentCs, nodeCs] node f >>= k) Q := by
  refine reading ((lasting_atNode t key parentCs sl slot node depth rem nodeCs P N).and hG).steady
    htype (fun _ hw => hw.1.known) ?_ hk
  rintro w m r hinv hhas ⟨hat, hw⟩ hm hr
  refine ⟨hat.readPrefix hinv hm (hhas.valid_of_live hlocks) fun hparent hnode => hr fun cs hcs => ?_,
    hw⟩
  rcases List.mem_cons.mp hcs with rfl | hcs
  · exact hhas.valid_of_live hlocks hparent
  · rw [List.mem_singleton.mp hcs]
    exact hhas.valid_of_live hlocks hnode

/-- The load of a child pointer of an inner node that other threads may know. -/
theorem loading {k : Option NodePtr → OlcM sizes α} (hF : Steady K t F) (htype : node.type ≠ .leaf)
    (hknown : ∀ ⦃w⦄, F w → w.Known node) (i : Nat) {H : Option NodePtr → World sizes → Prop}
    (hH : ∀ ⦃w m r⦄, Inv K w → w.Has t kit → F w → w.db.mem.deref node = some (.inode m) →
      (w.db.Valid nodeCs → m.slot i = r) → H r w)
    (hk : ∀ r, Meets K t kit (H r) (k r) Q) :
    Meets K t kit F (OlcDb.loadChild nodeCs (.child node.addr i) >>= k) Q := by
  have hinode : ∀ ⦃w⦄, F w → ∃ m, w.db.mem.deref node = some (.inode m) := by
    intro w hw
    obtain ⟨⟨body, hbody⟩, -⟩ := hknown hw
    cases body with
    | leaf k v => exact absurd (Tree.deref_eq_some_iff.mp hbody).2.symm htype
    | inode m => exact ⟨m, hbody⟩
  refine tryAct hF ?_ ?_
  · intro w c e hinv hhas hw hf
    obtain ⟨m, hm⟩ := hinode hw
    simp only [(Tree.deref_eq_some_iff.mp hm).1] at hf
    cases hf
  · intro w c b s hinv hhas hw hf
    obtain ⟨m, hm⟩ := hinode hw
    simp only [(Tree.deref_eq_some_iff.mp hm).1] at hf
    obtain ⟨rfl, rfl⟩ := Prod.mk.inj (Except.ok.inj hf)
    refine ⟨w, kit, _, rfl, hinv, .refl t w, hhas, hH hinv hhas hw hm fun hvalid => ?_, hk _⟩
    rw [view_eq]
    intro cs hcs
    rw [List.mem_singleton.mp hcs]
    exact hvalid

/-- The load of a child pointer in the section of its node. -/
theorem loadChild {k : Option NodePtr → OlcM sizes α} (hG : Lasting K t G) (hlocks : kit.locks = [])
    (htype : node.type ≠ .leaf) (i : Nat)
    (hk : ∀ r, Meets K t kit (fun w : World sizes => w.AtNode t key parentCs sl slot node depth rem nodeCs P
      (fun n => N n ∧ n.slot i = r) ∧ G w) (k r) Q) :
    Meets K t kit (fun w : World sizes => w.AtNode t key parentCs sl slot node depth rem nodeCs P N ∧ G w)
      (OlcDb.loadChild nodeCs (.child node.addr i) >>= k) Q := by
  refine loading ((lasting_atNode t key parentCs sl slot node depth rem nodeCs P N).and hG).steady
    htype (fun _ hw => hw.1.known) i ?_ hk
  rintro w m r hinv hhas ⟨hat, hw⟩ hm hr
  refine ⟨hat.readKids hinv hm (fun hlive => hr (hhas.valid_of_live hlocks hlive)) ?_, hw⟩
  intro n n' hcount hlayout
  rw [INode.eq_of_kids hcount hlayout]
  rfl

end Node

/-- What a leaf holds does not change. -/
theorem readingLeaf {node : NodePtr} {g : List UInt8 × List UInt8 → β} {k : β → OlcM sizes α}
    (hF : Lasting K t F) (htype : node.type = .leaf) (hknown : ∀ ⦃w⦄, F w → w.Known node)
    (hk : ∀ key value, Meets K t kit
      (fun w : World sizes => F w ∧ w.Known node ∧ w.db.mem.deref node = some (.leaf key value))
      (k (g (key, value))) Q) :
    Meets K t kit F ((OlcDb.tryAct fun _ s => do
      let leaf ← s.mem.readLeaf node
      return (g leaf, s)) >>= k) Q := by
  have hleaf : ∀ ⦃w⦄, F w → ∃ key value, w.db.mem.deref node = some (.leaf key value) := by
    intro w hw
    obtain ⟨⟨body, hbody⟩, -⟩ := hknown hw
    cases body with
    | leaf key value => exact ⟨key, value, hbody⟩
    | inode m =>
      rw [← (Tree.deref_eq_some_iff.mp hbody).2] at htype
      exact absurd htype m.type_ne_leaf
  refine tryAct hF.steady ?_ ?_
  · intro w c e hinv hhas hw hf
    obtain ⟨key, value, hm⟩ := hleaf hw
    rw [Tree.readLeaf_ok hm] at hf
    cases hf
  · intro w c b s hinv hhas hw hf
    obtain ⟨key, value, hm⟩ := hleaf hw
    rw [Tree.readLeaf_ok hm] at hf
    obtain ⟨rfl, rfl⟩ := Prod.mk.inj (Except.ok.inj hf)
    exact ⟨w, kit, _, rfl, hinv, .refl t w, hhas, ⟨hw, hknown hw, hm⟩, hk key value⟩

theorem readKey {node : NodePtr} {k : List UInt8 → OlcM sizes α} (hF : Lasting K t F)
    (htype : node.type = .leaf) (hknown : ∀ ⦃w⦄, F w → w.Known node)
    (hk : ∀ key value, Meets K t kit
      (fun w : World sizes => F w ∧ w.Known node ∧ w.db.mem.deref node = some (.leaf key value))
      (k key) Q) :
    Meets K t kit F (OlcDb.readKey node >>= k) Q :=
  readingLeaf (g := Prod.fst) hF htype hknown hk

theorem readLeaf {node : NodePtr} {k : List UInt8 × List UInt8 → OlcM sizes α} (hF : Lasting K t F)
    (htype : node.type = .leaf) (hknown : ∀ ⦃w⦄, F w → w.Known node)
    (hk : ∀ key value, Meets K t kit
      (fun w : World sizes => F w ∧ w.Known node ∧ w.db.mem.deref node = some (.leaf key value))
      (k (key, value)) Q) : Meets K t kit F (OlcDb.readLeaf node >>= k) Q :=
  readingLeaf (g := id) hF htype hknown hk

end Meets

end OlcDb

namespace World

variable {K : Set (List UInt8)} {w w' : World sizes} {t a : Nat} {body : Body} {kit : Kit}
  {n n' : INode NodePtr} {rest : List (Nat × Body)}

/-! ## 5. Nodes of its own -/

theorem Inv.not_retired (h : Inv K w) (ha : w.doomed a = none) :
    a ∉ w.db.retired.map (·.2.addr) := by
  intro hmem
  obtain ⟨⟨u, p⟩, hp, rfl⟩ := List.mem_map.mp hmem
  obtain ⟨g, hg⟩ := h.retired hp
  exact nomatch ha.symm.trans hg

theorem Inv.counted_heap (h : Inv K w) (ha : w.doomed a = none) :
    w.db.counted.heap a = w.db.mem.heap a := if_neg (h.not_retired ha)

theorem Inv.fresh_not_doomed (h : Inv K w) : w.doomed w.db.next = none := by
  by_contra hcon
  exact h.doomed_mem hcon (h.fresh (Nat.le_refl _)).1

/-- The world after the thread has allocated a node. -/
def allocate (w : World sizes) (t : Nat) (body : Body) : World sizes :=
  { w with db := w.db.allocated body, priv := Function.update w.priv w.db.next (some t) }

/-- The world after a node that the thread has for itself is freed. -/
def release (w : World sizes) (p : NodePtr) (body : Body) : World sizes :=
  { w with db := w.db.freed p body, priv := Function.update w.priv p.addr none }

/-- The world after an inner node is changed in memory. -/
def rewrite (w : World sizes) (a : Nat) (n : INode NodePtr) : World sizes :=
  { w with db := w.db.written a n }

theorem rewrite_heap (w : World sizes) (a x : Nat) (n : INode NodePtr) :
    (w.rewrite a n).db.mem.heap x = if x = a then some (.inode n) else w.db.mem.heap x :=
  Tree.set_heap ..

theorem Inv.allocate (h : Inv K w) (t : Nat) (body : Body) : Neutral t w (w.allocate t body) where
  tree := rfl
  path := rfl
  job := rfl
  insertsOnly := rfl
  root := rfl
  lock := rfl
  doomed := rfl
  next := Nat.le_succ _
  mem x := by
    by_cases hx : x = w.db.next
    · refine .own (.inr (Nat.le_of_eq hx.symm)) (.inl ⟨?_, ?_, ?_⟩)
      · rw [hx]
        exact Function.update_self _ _ _
      · show (w.db.mem.set _ _).heap x ≠ none
        rw [Tree.set_heap, if_pos hx]
        simp
      · rw [hx]
        exact Nat.lt_succ_self _
    · refine .same ?_ (Function.update_of_ne hx _ _)
      show (w.db.mem.set _ _).heap x = _
      rw [Tree.set_heap, if_neg hx]
  retired := .inl rfl
  counted := by
    have hset := OlcDb.counted_set w.db (h.not_retired h.fresh_not_doomed) (some body)
    have halloc := h.counted.alloc body
    rw [← hset] at halloc
    exact halloc

theorem Inv.release (h : Inv K w) {p : NodePtr} (hpriv : w.priv p.addr = some t)
    (hbody : w.db.mem.heap p.addr = some body) : Neutral t w (w.release p body) where
  tree := rfl
  path := rfl
  job := rfl
  insertsOnly := rfl
  root := rfl
  lock := rfl
  doomed := rfl
  next := Nat.le_refl _
  mem x := by
    by_cases hx : x = p.addr
    · refine .own (.inl (hx ▸ hpriv)) (.inr ⟨?_, ?_⟩)
      · rw [hx]
        exact Function.update_self _ _ _
      · show (w.db.mem.set _ _).heap x = none
        rw [Tree.set_heap, if_pos hx]
    · refine .same ?_ (Function.update_of_ne hx _ _)
      show (w.db.mem.set _ _).heap x = _
      rw [Tree.set_heap, if_neg hx]
  retired := .inl rfl
  counted := by
    have hdoomed := (h.priv hpriv).2.2.1
    have hset := OlcDb.counted_set w.db (h.not_retired hdoomed) none
    have hfree := h.counted.free ((h.counted_heap hdoomed).trans hbody)
    rw [← hset] at hfree
    exact hfree

theorem Inv.rewrite_own (h : Inv K w) (hpriv : w.priv a = some t)
    (hn : w.db.mem.heap a = some (.inode n)) (htype : n'.type = n.type) :
    Neutral t w (w.rewrite a n') where
  tree := rfl
  path := rfl
  job := rfl
  insertsOnly := rfl
  root := rfl
  lock := rfl
  doomed := rfl
  next := Nat.le_refl _
  mem x := by
    by_cases hx : x = a
    · refine .own (.inl (hx ▸ hpriv)) (.inl ⟨hx ▸ hpriv, ?_, ?_⟩)
      · show (w.db.mem.set _ _).heap x ≠ none
        rw [Tree.set_heap, if_pos hx]
        simp
      · show x < w.db.next
        rw [hx]
        exact h.lt_next (by rw [hn]; simp)
    · refine .same ?_ rfl
      show (w.db.mem.set _ _).heap x = _
      rw [Tree.set_heap, if_neg hx]
  retired := .inl rfl
  counted := by
    have hdoomed := (h.priv hpriv).2.2.1
    have hset := OlcDb.counted_set w.db (h.not_retired hdoomed) (some (.inode n'))
    have hupdate := h.counted.updateInode ((h.counted_heap hdoomed).trans hn) htype
    rw [← hset] at hupdate
    exact hupdate

/-- An action on a node of its own or at a free address is of no concern to the thread's view. -/
theorem Neutral.keeps (h : Inv K w) (hw : Neutral t w w')
    (hsame : ∀ {p}, w.Known p → w'.db.mem.heap p.addr = w.db.mem.heap p.addr) : Keeps t w w' :=
  .of_mem hw.tree hw.path hw.doomed hw.lock hw.job hw.insertsOnly hsame fun hread => by
    obtain ⟨body, hbody⟩ := h.tree_of_read hread
    exact h.known hbody

theorem Keeps.allocate (h : Inv K w) (t : Nat) (body : Body) : Keeps t w (w.allocate t body) :=
  (h.allocate t body).keeps h fun {p} hp => by
    show (w.db.mem.set _ _).heap p.addr = _
    rw [Tree.set_heap, if_neg (Nat.ne_of_lt (hp.lt_next h))]

theorem Known.ne_own (h : Inv K w) {p : NodePtr} (hp : w.Known p) (ha : w.priv a = some t) :
    p.addr ≠ a := by
  rintro rfl
  exact nomatch (hp.not_priv h).symm.trans ha

theorem Keeps.release (h : Inv K w) {p : NodePtr} (hpriv : w.priv p.addr = some t)
    (hbody : w.db.mem.heap p.addr = some body) : Keeps t w (w.release p body) :=
  (h.release hpriv hbody).keeps h fun {q} hq => by
    show (w.db.mem.set _ _).heap q.addr = _
    rw [Tree.set_heap, if_neg (hq.ne_own h hpriv)]

theorem Keeps.rewrite_own (h : Inv K w) (hpriv : w.priv a = some t)
    (hn : w.db.mem.heap a = some (.inode n)) (htype : n'.type = n.type) :
    Keeps t w (w.rewrite a n') :=
  (h.rewrite_own hpriv hn htype).keeps h fun {q} hq => by
    show (w.db.mem.set _ _).heap q.addr = _
    rw [Tree.set_heap, if_neg (hq.ne_own h hpriv)]

theorem Has.priv_of_mem (h : w.Has t kit) (ha : (a, body) ∈ kit.nodes) : w.priv a = some t :=
  (h.nodes a).mpr (List.mem_map_of_mem ha)

theorem Has.allocate (h : w.Has t kit) (hinv : Inv K w) (body : Body) :
    (w.allocate t body).Has t { kit with nodes := (w.db.next, body) :: kit.nodes } := by
  have hfresh : w.db.next ∉ kit.nodes.map Prod.fst := by
    intro hmem
    exact (hinv.priv ((h.nodes _).mpr hmem)).1 (hinv.fresh (Nat.le_refl _)).1
  refine { h with nodes := fun x => ?_, nodup := ?_, mem := fun {x b} hx => ?_ }
  · show Function.update w.priv w.db.next (some t) x = some t ↔ _
    rw [Function.update_apply, List.map_cons, List.mem_cons, ← h.nodes x]
    split
    · rename_i heq
      exact iff_of_true rfl (.inl heq)
    · rename_i hne
      exact (or_iff_right hne).symm
  · exact List.nodup_cons.mpr ⟨hfresh, h.nodup⟩
  · show (w.db.mem.set _ _).heap x = _
    rw [Tree.set_heap]
    rcases List.mem_cons.mp hx with heq | hold
    · obtain ⟨rfl, rfl⟩ := Prod.mk.inj heq
      exact if_pos rfl
    · rw [if_neg]
      · exact h.mem hold
      · rintro rfl
        have hmem := List.mem_map_of_mem (f := Prod.fst) hold
        exact hfresh hmem

theorem Has.release (h : w.Has t kit) {p : NodePtr} (hnodes : kit.nodes = (p.addr, body) :: rest) :
    (w.release p body).Has t { kit with nodes := rest } := by
  have hnodup := h.nodup
  rw [hnodes, List.map_cons, List.nodup_cons] at hnodup
  refine { h with nodes := fun x => ?_, nodup := hnodup.2, mem := fun {x b} hx => ?_ }
  · show Function.update w.priv p.addr none x = some t ↔ _
    have hold := h.nodes x
    rw [hnodes, List.map_cons, List.mem_cons] at hold
    rw [Function.update_apply]
    split
    · rename_i heq
      exact iff_of_false nofun (heq ▸ hnodup.1)
    · rename_i hne
      exact hold.trans (or_iff_right hne)
  · show (w.db.mem.set _ _).heap x = _
    rw [Tree.set_heap, if_neg]
    · refine h.mem ?_
      rw [hnodes]
      exact List.mem_cons_of_mem _ hx
    · rintro rfl
      have hmem := List.mem_map_of_mem (f := Prod.fst) hx
      exact hnodup.1 hmem

theorem Has.rewrite_own (h : w.Has t kit) (hnodes : kit.nodes = (a, .inode n) :: rest)
    (n' : INode NodePtr) :
    (w.rewrite a n').Has t { kit with nodes := (a, .inode n') :: rest } := by
  have hnodup := h.nodup
  rw [hnodes, List.map_cons] at hnodup
  refine { h with nodes := fun x => ?_, nodup := hnodup, mem := fun {x b} hx => ?_ }
  · have hold := h.nodes x
    rw [hnodes, List.map_cons] at hold
    exact hold
  · show (w.db.mem.set _ _).heap x = _
    rw [Tree.set_heap]
    rcases List.mem_cons.mp hx with heq | hold
    · obtain ⟨rfl, rfl⟩ := Prod.mk.inj heq
      exact if_pos rfl
    · rw [if_neg]
      · refine h.mem ?_
        rw [hnodes]
        exact List.mem_cons_of_mem _ hold
      · rintro rfl
        have hmem := List.mem_map_of_mem (f := Prod.fst) hold
        exact (List.nodup_cons.mp hnodup).1 hmem

end World

namespace OlcDb

namespace Meets

open World

variable {α : Type} {K : Set (List UInt8)} {t : Nat} {kit : Kit} {F : World sizes → Prop}
  {Q : α → World sizes → Prop} {rest : List (Nat × Body)} {x : Nat}

theorem makeDbLeafPtr {κ : Type} [ArtKey κ] {key : κ} {v : List UInt8} {k : NodePtr → OlcM sizes α}
    (hF : Lasting K t F) (hthrow : ∀ e : Fault, e.isException → kit.MayThrow e)
    (hk : ∀ x, Meets K t { kit with nodes := (x, .leaf (ArtKey.getKeyView key) v) :: kit.nodes } F
      (k ⟨x, .leaf⟩) Q) : Meets K t kit F (OlcDb.makeDbLeafPtr key v >>= k) Q := by
  refine tryAct hF.steady (fun w c e _ _ _ hf => hthrow e ?_) fun w c b s hinv hhas hw hf => ?_
  · split at hf
    · cases hf
      rfl
    · split at hf
      · cases hf
        rfl
      · rw [alloc_eq] at hf
        cases hf
  cases hrefusal : Db.leafRefusal key v with
  | some what =>
    simp only [hrefusal] at hf
    cases hf
  | none =>
    simp only [hrefusal] at hf
    split at hf
    · cases hf
    · rw [alloc_eq] at hf
      obtain ⟨rfl, rfl⟩ := Prod.mk.inj (Except.ok.inj hf)
      have hneutral := hinv.allocate t (.leaf (ArtKey.getKeyView key) v)
      exact ⟨_, _, F, rfl, hneutral.inv hinv, hneutral.step hinv, hhas.allocate hinv _,
        hF hinv (hneutral.inv hinv) (.allocate hinv t _) hw, hk _⟩

theorem tryMakeDbInode {type : NodeType} {keyPrefix : KeyPrefix} {k : Option NodePtr → OlcM sizes α}
    (hF : Lasting K t F) (hnone : Meets K t kit F (k none) Q)
    (hsome : ∀ x, Meets K t
      { kit with nodes := (x, .inode (INode.blank type keyPrefix)) :: kit.nodes } F
      (k (some ⟨x, (INode.blank type keyPrefix).type⟩)) Q) :
    Meets K t kit F (OlcDb.tryMakeDbInode type keyPrefix >>= k) Q := by
  refine tryAct hF.steady (fun w c e _ _ _ hf => ?_) fun w c b s hinv hhas hw hf => ?_
  · split at hf
    · cases hf
    · rw [alloc_eq] at hf
      cases hf
  · split at hf
    · obtain ⟨rfl, rfl⟩ := Prod.mk.inj (Except.ok.inj hf)
      exact ⟨w, kit, F, rfl, hinv, .refl t w, hhas, hw, hnone⟩
    · rw [alloc_eq] at hf
      obtain ⟨rfl, rfl⟩ := Prod.mk.inj (Except.ok.inj hf)
      have hneutral := hinv.allocate t (.inode (INode.blank type keyPrefix))
      exact ⟨_, _, F, rfl, hneutral.inv hinv, hneutral.step hinv, hhas.allocate hinv _,
        hF hinv (hneutral.inv hinv) (.allocate hinv t _) hw, hsome _⟩

theorem free {b : Body} {k : Unit → OlcM sizes α} (hF : Lasting K t F)
    (hnodes : kit.nodes = (x, b) :: rest)
    (hk : Meets K t { kit with nodes := rest } F (k ()) Q) :
    Meets K t kit F (OlcDb.free ⟨x, b.type⟩ >>= k) Q := by
  have hfacts : ∀ ⦃w : World sizes⦄, Inv K w → w.Has t kit → w.priv x = some t ∧
      w.db.mem.heap x = some b ∧ w.db.mem.deref ⟨x, b.type⟩ = some b ∧
      w.db.stats.decrement (sizes.of b) b.type =
        .ok (Accounted.uncounted sizes w.db.stats b) := by
    intro w hinv hhas
    have hmem : (x, b) ∈ kit.nodes := by
      rw [hnodes]
      exact List.mem_cons_self
    have hpriv := hhas.priv_of_mem hmem
    have hheap := hhas.mem hmem
    refine ⟨hpriv, hheap, Tree.deref_eq_some_iff.mpr ⟨hheap, rfl⟩, ?_⟩
    exact hinv.counted.decrement_eq ((hinv.counted_heap (hinv.priv hpriv).2.2.1).trans hheap)
  refine tryAct hF.steady (fun w c e hinv hhas _ hf => ?_) fun w c r s hinv hhas hw hf => ?_
  · obtain ⟨-, -, hderef, hstats⟩ := hfacts hinv hhas
    simp only [hderef, hstats] at hf
    cases hf
  · obtain ⟨hpriv, hheap, hderef, hstats⟩ := hfacts hinv hhas
    simp only [hderef, hstats] at hf
    obtain ⟨rfl, rfl⟩ := Prod.mk.inj (Except.ok.inj hf)
    have hneutral := hinv.release (p := ⟨x, b.type⟩) hpriv hheap
    exact ⟨_, _, F, rfl, hneutral.inv hinv, hneutral.step hinv, hhas.release hnodes,
      hF hinv (hneutral.inv hinv) (.release hinv hpriv hheap) hw, hk⟩

end Meets

end OlcDb

end Unodb
