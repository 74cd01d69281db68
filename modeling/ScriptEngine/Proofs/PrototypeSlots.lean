import Mathlib.Logic.Relation
import ScriptEngine.Proofs.CallDiscipline
import ScriptEngine.Proofs.HiddenCallers
import ScriptEngine.Proofs.ScopeLookup

/-!
# The prototype of a function

A function has a slot for its `prototype`, which is filled with a default object when it is first
asked for, and which can be set, deleted, or fixed for good. Reads, tests and calls as constructor
all go through the slot: whatever they are interleaved with, they agree.
-/

namespace ScriptEngine

variable {s t : Store} {receiver f : ObjId} {σ : Type} {data : FunctionData}

namespace Store

variable {u : Store}

/-- The object has the function as its constructor. -/
def ConstructedBy (s : Store) (f p : ObjId) : Prop :=
  (s.properties p).find? "constructor" = some (.readOnly (.object f))

/-- A change that leaves a function alone, except that its default prototype may be made. -/
structure Calm (f : ObjId) (s t : Store) : Prop where
  size_le : s.size ≤ t.size
  constructed : ∀ p, s.ConstructedBy f p → t.ConstructedBy f p
  function_eq : t.function? f = s.function? f ∨ ∃ data p, s.function? f = some data ∧
    data.slot = .unset ∧ t.function? f = some { data with slot := .set (.object p) } ∧
      t.ConstructedBy f p

private theorem Calm.refl (s : Store) : s.Calm f s := ⟨Nat.le_refl _, fun _ h => h, .inl rfl⟩

private theorem Calm.trans (h : s.Calm f t) (h' : t.Calm f u) : s.Calm f u := by
  refine ⟨Nat.le_trans h.size_le h'.size_le, fun p hp => h'.constructed p (h.constructed p hp), ?_⟩
  rcases h.function_eq with heq | ⟨data, p, hf, hslot, hset, hp⟩
  · rw [← heq]
    exact h'.function_eq
  · rcases h'.function_eq with heq | ⟨data', p', hf', hslot', -⟩
    · exact .inr ⟨data, p, hf, hslot, heq.trans hset, h'.constructed p hp⟩
    · rw [hset] at hf'
      cases hf'
      cases hslot'

private theorem Calm.exists_function (h : s.Calm f t) (hf : s.function? f = some data) :
    ∃ data', t.function? f = some data' := by
  rcases h.function_eq with heq | ⟨_, _, -, -, hset, -⟩
  · exact ⟨data, heq.trans hf⟩
  · exact ⟨_, hset⟩

/-- Links of an object may change. -/
theorem calm_modify {id : ObjId} {g : Object → Object} (hkind : ∀ o, (g o).kind = o.kind)
    (hproperties : ∀ o, (g o).properties = o.properties) : s.Calm f (s.modify id g) := by
  have hkinds : (s.modify id g).kind f = s.kind f := part_modify (·.kind) (hkind _) f
  refine ⟨by simp, fun p hp => ?_, .inl (by rw [function?, function?, hkinds])⟩
  rw [ConstructedBy, properties, part_modify (·.properties) (hproperties _) p]
  exact hp

private theorem lt_size_of_function? (hf : s.function? f = some data) : f.index < s.size :=
  lt_size_of_kind (by simp [kind_eq_of_function? hf])

/-- A new object. -/
theorem calm_push (o : Object) (hf : s.function? f = some data) : s.Calm f (s.push o).2 := by
  refine ⟨by simp, fun p hp => ?_, .inl ?_⟩
  · have hlt : p.index < s.size := by
      refine Nat.lt_of_not_le fun hle => ?_
      rw [ConstructedBy, properties, object_of_size_le hle] at hp
      cases hp
    rw [ConstructedBy, properties, object_push_lt _ _ hlt]
    exact hp
  · rw [function?, function?, kind, object_push_lt _ _ (lt_size_of_function? hf), kind]

private theorem function?_setKind (hf : s.function? f = some data) (data' : FunctionData) :
    (s.setKind f (.function data')).function? f = some data' := by
  rw [function?, kind_setKind _ _ _ _ (lt_size_of_function? hf), if_pos rfl]

/-- The default prototype. -/
theorem settlePrototype_unset (hf : s.function? f = some data) (hslot : data.slot = .unset) :
    let t := s.settlePrototype f
    t.function? f = some { data with slot := .set (.object ⟨s.size⟩) } ∧
      t.ConstructedBy f ⟨s.size⟩ ∧ s.size ≤ t.size ∧
      ∀ p, s.ConstructedBy f p → t.ConstructedBy f p := by
  let fresh : Object :=
    { kind := .plain "Object" none
      properties := ({} : PropertyMap).define "constructor" (.readOnly (.object f))
      proto := (s.prototypes f).tail.getLast? }
  have hpush := calm_push fresh hf
  have hf' : (s.push fresh).2.function? f = some data := by
    rw [function?, kind, object_push_lt _ _ (lt_size_of_function? hf), ← kind,
      kind_eq_of_function? hf]
  simp only [settlePrototype, hf, hslot]
  refine ⟨function?_setKind hf' _, ?_, by simp, fun p hp => ?_⟩
  · rw [ConstructedBy, properties_setKind _ _ _ _ (lt_size_of_function? hf'),
      properties, object_push, if_pos rfl]
    rfl
  · rw [ConstructedBy, properties_setKind _ _ _ _ (lt_size_of_function? hf')]
    exact hpush.constructed p hp

private theorem calm_settlePrototype (hf : s.function? f = some data) :
    s.Calm f (s.settlePrototype f) := by
  by_cases hslot : data.slot = .unset
  · obtain ⟨hset, hmade, hsize, hkept⟩ := settlePrototype_unset hf hslot
    exact ⟨hsize, hkept, .inr ⟨data, _, hf, hslot, hset, hmade⟩⟩
  · rw [(read_settlePrototype hf).2 hslot]
    exact .refl s

/-- An object that is made as the receiver of a call. -/
theorem receiver_spec (hf : s.function? f = some data) (p : ObjId) :
    let made := (s.newPlain "Object" (some p) none).2
    let t := made.setParent ⟨s.size⟩ (made.parent? f)
    s.Calm f t ∧ t.proto? ⟨s.size⟩ = some p := by
  intro made t
  refine ⟨(calm_push _ hf).trans (calm_modify (fun _ => rfl) fun _ => rfl), ?_⟩
  have hkept : t.proto? ⟨s.size⟩ = made.proto? ⟨s.size⟩ := part_modify (·.proto) rfl _
  rw [hkept, proto?]
  simp only [made]
  rw [newPlain, object_push, if_pos rfl]

end Store

/-! ## Construction -/

/-- The prototype of an object that is constructed while a function shows a value as its own. -/
def Realm.prototypeFor (r : Realm) : Option Value → ObjId
  | some (.object p) => p
  | _ => r.objectPrototype

variable {m m' : Machine σ}

/-- What a function shows as its `prototype`: a new object if there has been none. -/
def Store.shown (s : Store) (data : FunctionData) : Option Value := data.slot.settled ⟨s.size⟩

/-- A call of the function as constructor starts with a new object. -/
def FunctionData.MakesReceiver (data : FunctionData) : Prop :=
  ∀ result, data.callable ≠ .selfMade result

namespace Dispatch

private theorem outcome_classPrototype (hf : m.store.function? f = some data) :
    (classPrototype f).outcome m = .ok (.ok (m.realm.prototypeFor (m.store.shown data)))
      { m with store := m.store.settlePrototype f } := by
  have hrun : (StoreM.getOwn f "prototype").run m.store =
      .ok (m.store.shown data, m.store.settlePrototype f) := by
    rw [Store.getOwn_run_settled, (Store.read_settlePrototype hf).1]
    rfl
  have hread : (Run.onStore (StoreM.getOwn f "prototype") : Run σ _).outcome m =
      .ok (.ok (m.store.shown data)) { m with store := m.store.settlePrototype f } := by
    rw [Run.onStore, Run.outcome_bind, Run.outcome_store]
    dsimp only
    rw [hrun]
    rfl
  rw [classPrototype, Run.outcome_bind, hread]
  cases m.store.shown data with
  | none => rfl
  | some v => cases v <;> rfl

/-- The scope is given last. -/
theorem outcome_adoptScope (f object : ObjId) (m : Machine σ) :
    ∃ m', (do
      let s ← Run.store
      if (s.parent? object).isNone then
        match s.parent? f with
        | some parent => if parent ≠ object then Run.modifyStore (·.setParent object (some parent))
        | none => return () : Run σ Unit).outcome m = .ok (.ok ()) m' ∧
      m'.realm = m.realm ∧ m.store.Calm f m'.store ∧
      m'.store.proto? object = m.store.proto? object := by
  rw [Run.outcome_bind, Run.outcome_store]
  dsimp only
  split
  · split
    · split
      · exact ⟨_, rfl, rfl, Store.calm_modify (fun _ => rfl) fun _ => rfl,
          Store.part_modify (·.proto) rfl object⟩
      · exact ⟨_, rfl, rfl, .refl _, rfl⟩
    · exact ⟨_, rfl, rfl, .refl _, rfl⟩
  · exact ⟨_, rfl, rfl, .refl _, rfl⟩

/-- An object without a prototype gets the one that the function shows. -/
theorem outcome_adopt (hf : m.store.function? f = some data) (object : ObjId) :
    ∃ m', (adopt f object).outcome m = .ok (.ok ()) m' ∧ m'.realm = m.realm ∧
      m.store.Calm f m'.store ∧ (m.store.proto? object = none →
        (m.store.settlePrototype f).Calm f m'.store ∧ (object.index < m.store.size →
          m'.store.proto? object = some (m.realm.prototypeFor (m.store.shown data)))) := by
  rw [adopt, Run.outcome_bind, Run.outcome_store]
  dsimp only
  cases hproto : m.store.proto? object with
  | some p =>
    obtain ⟨m', hrun, hrealm, hcalm, -⟩ := outcome_adoptScope f object m
    exact ⟨m', hrun, hrealm, hcalm, by simp⟩
  | none =>
    rw [if_pos (by rfl), Run.outcome_bind, outcome_classPrototype hf]
    let t := m.store.settlePrototype f
    let proto := m.realm.prototypeFor (m.store.shown data)
    obtain ⟨m', hrun, hrealm, hcalm, hkept⟩ :=
      outcome_adoptScope f object { m with store := t.setProto object (some proto) }
    have hsettle := Store.calm_settlePrototype hf
    have hset : t.Calm f (t.setProto object (some proto)) :=
      Store.calm_modify (fun _ => rfl) fun _ => rfl
    have hcalm' := hset.trans hcalm
    refine ⟨m', hrun, hrealm, hsettle.trans hcalm', fun _ => ⟨hcalm', fun hlt => hkept.trans ?_⟩⟩
    have hlt' : object.index < t.size := Nat.lt_of_lt_of_le hlt hsettle.size_le
    show (t.setProto object (some proto)).proto? object = some proto
    rw [Store.proto?, Store.setProto, Store.object_modify _ _ _ _ hlt', if_pos rfl]

/-- The receiver of a call as constructor gets the prototype that the function shows. -/
theorem outcome_createObject (hf : m.store.function? f = some data) :
    ∃ r m', (createObject f).outcome m = .ok (.ok r) m' ∧ m'.realm = m.realm ∧
      m.store.Calm f m'.store ∧ (data.MakesReceiver → r.isSome) ∧ ∀ receiver, r = some receiver →
        (m.store.settlePrototype f).Calm f m'.store ∧ f.index < receiver.index ∧
          m'.store.proto? receiver = some (m.realm.prototypeFor (m.store.shown data)) := by
  rw [createObject, Run.outcome_bind, Run.outcome_store]
  dsimp only
  rw [hf]
  obtain ⟨name, arity, callable, slot, immune⟩ := data
  cases callable with
  | selfMade result =>
    exact ⟨none, m, rfl, rfl, .refl _, fun h => absurd rfl (h result), nofun⟩
  | _ =>
    dsimp only
    rw [Run.outcome_bind, outcome_classPrototype hf]
    have hsettle := Store.calm_settlePrototype hf
    obtain ⟨data', hf'⟩ := hsettle.exists_function hf
    obtain ⟨hcalm, hproto⟩ := Store.receiver_spec hf' (m.realm.prototypeFor (m.store.shown _))
    refine ⟨some _, _, rfl, rfl, hsettle.trans hcalm, fun _ => rfl, fun receiver heq => ?_⟩
    cases heq
    exact ⟨hcalm, Store.lt_size_of_function? hf', hproto⟩

end Dispatch

/-! ## Interleavings -/

/-- What can be done with the `prototype` of a function, and what else can happen. -/
inductive SlotOp where
  | access (op : PropertyOp)
  | fix (value : Value)
  /-- A call as constructor starts. -/
  | create
  /-- A call as constructor ends with an object that the function has made itself. -/
  | adopt (object : ObjId)
  | other

namespace SlotOp

def Fixes : SlotOp → Prop
  | fix _ => True
  | _ => False

def Sets : SlotOp → Prop
  | fix _ | access (.put _) => True
  | _ => False

def Changes : SlotOp → Prop
  | fix _ | access (.put _) | access .delete => True
  | _ => False

/-- The operation asks for the prototype. -/
def Reads (f : ObjId) (s : Store) : SlotOp → Prop
  | access .get => True
  | create => ∃ data, s.function? f = some data ∧ data.MakesReceiver
  | adopt object => s.proto? object = none
  | _ => False

end SlotOp

/-- One step of an interleaving. -/
inductive SlotStep (f : ObjId) : SlotOp → Machine σ → Machine σ → Prop
  | access {m : Machine σ} {op answer t} (h : op.run f "prototype" m.store = .ok (answer, t)) :
      SlotStep f (.access op) m { m with store := t }
  | fix (m : Machine σ) (value) :
      SlotStep f (.fix value) m { m with store := m.store.fixPrototype f value }
  | create {m m' : Machine σ} {r} (h : (Dispatch.createObject f).outcome m = .ok r m') :
      SlotStep f .create m m'
  | adopt {m m' : Machine σ} {object r} (h : (Dispatch.adopt f object).outcome m = .ok r m') :
      SlotStep f (.adopt object) m m'
  | other {m m' : Machine σ} (hrealm : m'.realm = m.realm) (hcalm : m.store.Calm f m'.store) :
      SlotStep f .other m m'

/-- Operations of some kinds, one after the other. -/
def Interleaving (f : ObjId) (allowed : SlotOp → Prop) : Machine σ → Machine σ → Prop :=
  Relation.ReflTransGen fun m m' => ∃ op, allowed op ∧ SlotStep f op m m'

/-- What everyone who asks for the `prototype` of a function is told. -/
structure Presents (f : ObjId) (v : Option Value) (m : Machine σ) : Prop where
  get : ∃ t, PropertyOp.get.run f "prototype" m.store = .ok (.value v, t)
  has : PropertyOp.has.run f "prototype" m.store = .ok (.flag v.isSome, m.store)
  create : SlotOp.create.Reads f m.store → ∃ receiver m',
    (Dispatch.createObject f).outcome m = .ok (.ok (some receiver)) m' ∧
      m'.store.proto? receiver = some (m.realm.prototypeFor v)
  adopt : ∀ object, m.store.proto? object = none → object.index < m.store.size → ∃ m',
    (Dispatch.adopt f object).outcome m = .ok (.ok ()) m' ∧
      m'.store.proto? object = some (m.realm.prototypeFor v)

section

variable {op : SlotOp}

private theorem Store.get_prototype (hf : s.function? f = some data) :
    PropertyOp.get.run f "prototype" s = .ok (.value (s.shown data), s.settlePrototype f) := by
  rw [PropertyOp.run, getOwn_run_settled, (read_settlePrototype hf).1]
  rfl

private theorem presents_shown (hf : m.store.function? f = some data) :
    Presents f (m.store.shown data) m where
  get := ⟨_, Store.get_prototype hf⟩
  has := by rw [PropertyOp.run, Store.has_prototype hf, Store.shown]
  create := by
    rintro ⟨data', hf', hmakes⟩
    cases hf.symm.trans hf'
    obtain ⟨r, m', hrun, -, -, hsome, hmade⟩ := Dispatch.outcome_createObject hf
    obtain ⟨receiver, rfl⟩ := Option.isSome_iff_exists.mp (hsome hmakes)
    exact ⟨receiver, m', hrun, (hmade receiver rfl).2.2⟩
  adopt := by
    intro object hnone hlt
    obtain ⟨m', hrun, -, -, hread⟩ := Dispatch.outcome_adopt hf object
    exact ⟨m', hrun, (hread hnone).2 hlt⟩

private theorem presents_of_set {v : Value} (hf : m.store.function? f = some data)
    (hslot : data.slot = .set v) : Presents f (some v) m := by
  have h := presents_shown hf
  rwa [Store.shown, hslot] at h

namespace SlotStep

/-- A step that does not change the prototype leaves the function as it is, except that it makes the
default. If it reads the prototype, there is one afterwards. -/
theorem calm (h : SlotStep f op m m') (hop : ¬ op.Changes) (hf : m.store.function? f = some data) :
    m'.realm = m.realm ∧ m.store.Calm f m'.store ∧
      (op.Reads f m.store → (m.store.settlePrototype f).Calm f m'.store) := by
  cases h with
  | @access _ op answer t hrun =>
    cases op with
    | get =>
      rw [Store.get_prototype hf] at hrun
      cases hrun
      exact ⟨rfl, Store.calm_settlePrototype hf, fun _ => .refl _⟩
    | has =>
      cases hrun
      exact ⟨rfl, .refl _, False.elim⟩
    | put | delete => exact absurd trivial hop
  | fix => exact absurd trivial hop
  | create h =>
    obtain ⟨r, m1, hrun, hrealm, hcalm, hsome, hmade⟩ := Dispatch.outcome_createObject hf
    cases hrun.symm.trans h
    refine ⟨hrealm, hcalm, ?_⟩
    rintro ⟨data', hf', hmakes⟩
    cases hf.symm.trans hf'
    obtain ⟨receiver, rfl⟩ := Option.isSome_iff_exists.mp (hsome hmakes)
    exact (hmade receiver rfl).1
  | @adopt _ _ object _ h =>
    obtain ⟨m1, hrun, hrealm, hcalm, hread⟩ := Dispatch.outcome_adopt hf object
    cases hrun.symm.trans h
    exact ⟨hrealm, hcalm, fun hnone => (hread hnone).1⟩
  | other hrealm hcalm => exact ⟨hrealm, hcalm, False.elim⟩

end SlotStep

private theorem Store.Calm.function?_eq (h : s.Calm f t)
    (hf : s.function? f = some data) (hslot : data.slot ≠ .unset) : t.function? f = some data := by
  rcases h.function_eq with heq | ⟨data', p, hf', hunset, -⟩
  · exact heq.trans hf
  · cases hf.symm.trans hf'
    exact absurd hunset hslot

/-- The operation has no effect on a function that has had a prototype. -/
def FunctionData.Resists (data : FunctionData) : SlotOp → Prop
  | .fix _ => False
  | .access (.put _) => data.immune = true
  | .access .delete => data.immune = true ∨ data.slot = .deleted
  | _ => True

private theorem FunctionData.resists_of_deleted (hslot : data.slot = .deleted) (h : ¬ op.Sets) :
    data.Resists op := by
  cases op with
  | access op =>
    cases op with
    | put => exact absurd trivial h
    | delete => exact .inr hslot
    | get | has => trivial
  | fix => exact absurd trivial h
  | _ => trivial

private theorem FunctionData.resists_of_immune (himmune : data.immune = true) (h : ¬ op.Fixes) :
    data.Resists op := by
  cases op with
  | access op =>
    cases op with
    | put => exact himmune
    | delete => exact .inl himmune
    | get | has => trivial
  | fix => exact absurd trivial h
  | _ => trivial

private theorem put_prototype (hf : s.function? f = some data)
    (himmune : data.immune = true) (v : Value) : s.put f "prototype" v = s := by
  have hkind := Store.kind_eq_of_function? hf
  rw [Store.put, Store.exposed_eq_self (by rw [Store.isWithScope, hkind]), Store.putOwn, hkind]
  exact if_pos himmune

private theorem delete_prototype (hf : s.function? f = some data) :
    s.delete f "prototype" = if data.immune then (false, s)
      else (true, s.setKind f (.function { data with slot := .deleted })) := by
  rw [Store.delete, Store.kind_eq_of_function? hf]
  rfl

private theorem SlotStep.resisted (h : SlotStep f op m m') (hf : m.store.function? f = some data)
    (hslot : data.slot ≠ .unset) (hop : data.Resists op) : m'.store.function? f = some data := by
  by_cases hchanges : op.Changes
  · cases h with
    | @access _ op answer t hrun =>
      cases op with
      | put v =>
        cases hrun
        rwa [put_prototype hf hop]
      | delete =>
        cases hrun
        rw [delete_prototype hf]
        split
        · exact hf
        · next himmune =>
          have hdeleted := hop.resolve_left himmune
          dsimp only
          rw [Store.function?_setKind hf, ← hdeleted]
      | get | has => exact hchanges.elim
    | fix => exact hop.elim
    | _ => exact hchanges.elim
  · exact (h.calm hchanges hf).2.1.function?_eq hf hslot

private theorem Interleaving.resisted {allowed : SlotOp → Prop} (h : Interleaving f allowed m m')
    (hf : m.store.function? f = some data) (hslot : data.slot ≠ .unset)
    (hallowed : ∀ op, allowed op → data.Resists op) : m'.store.function? f = some data := by
  induction h with
  | refl => exact hf
  | tail _ hstep ih =>
    obtain ⟨op, hop, hstep⟩ := hstep
    exact hstep.resisted ih hslot (hallowed op hop)

private theorem Interleaving.calm (h : Interleaving f (¬ ·.Changes) m m')
    (hf : m.store.function? f = some data) : m.store.Calm f m'.store := by
  induction h with
  | refl => exact .refl _
  | tail _ hstep ih =>
    obtain ⟨op, hop, hstep⟩ := hstep
    obtain ⟨data', hf'⟩ := ih.exists_function hf
    exact ih.trans (hstep.calm hop hf').2.1

end

/-- A default that is made is kept. -/
theorem Interleaving.presents_default {op : SlotOp} {m1 m2 m3 : Machine σ}
    (hf : m.store.function? f = some data) (hunset : data.slot = .unset)
    (hfirst : Interleaving f (¬ ·.Changes) m m1) (hreads : op.Reads f m1.store)
    (hop : SlotStep f op m1 m2) (hthen : Interleaving f (¬ ·.Changes) m2 m3) :
    ∃ p, Presents f (some (.object p)) m1 ∧ Presents f (some (.object p)) m3 ∧
      m3.store.ConstructedBy f p := by
  have hquiet : ¬ op.Changes := by
    rcases op with (_ | _ | _ | _) | _ | _ | _ | _ <;> first | exact id | exact hreads.elim
  have hcalm := hfirst.calm hf
  obtain ⟨data1, hf1⟩ := hcalm.exists_function hf
  -- Reading the prototype settles it.
  obtain ⟨p, data', hshown, hset, hslot, hp⟩ : ∃ p data', m1.store.shown data1 = some (.object p) ∧
      (m1.store.settlePrototype f).function? f = some data' ∧ data'.slot = .set (.object p) ∧
      (m1.store.settlePrototype f).ConstructedBy f p := by
    rcases hcalm.function_eq with heq | ⟨data0, p, hf0, -, hset, hp⟩
    · cases hf1.symm.trans (heq.trans hf)
      obtain ⟨hset, hmade, -⟩ := Store.settlePrototype_unset hf1 hunset
      exact ⟨_, _, by rw [Store.shown, hunset]; rfl, hset, rfl, hmade⟩
    · cases hset.symm.trans hf1
      rw [(Store.read_settlePrototype hf1).2 (by simp)]
      exact ⟨p, _, rfl, hset, rfl, hp⟩
  have hstep := (hop.calm hquiet hf1).2.2 hreads
  have hf2 := hstep.function?_eq hset (by simp [hslot])
  have hcalm2 := hthen.calm hf2
  refine ⟨p, hshown ▸ presents_shown hf1, ?_, hcalm2.constructed p (hstep.constructed p hp)⟩
  exact presents_of_set (hcalm2.function?_eq hf2 (by simp [hslot])) hslot

/-- A receiver descends from the prototype that it has been made with. -/
theorem hasInstance_receiver {p : ObjId} (hf : s.function? f = some data)
    (hslot : data.slot = .set (.object p)) (hlt : f.index < receiver.index)
    (hsize : receiver.index < s.size) (hproto : s.proto? receiver = some p) :
    (StoreM.hasInstance f (.object receiver)).run s = .ok (.ok true, s) := by
  have hget : (StoreM.getOwn f "prototype").run s = .ok (some (.object p), s) := by
    obtain ⟨hread, hself⟩ := Store.read_settlePrototype hf
    rw [Store.getOwn_run_settled, hread, hself (by simp [hslot]), hslot]
    rfl
  have hchain : (s.prototypes receiver).tail.contains p = true := by
    obtain ⟨fuel, hfuel⟩ : ∃ fuel, s.size = fuel + 2 := ⟨s.size - 2, by omega⟩
    rw [Store.proto?] at hproto
    simp [Store.prototypes, hfuel, Store.walk, hproto]
  rw [StoreM.hasInstance, StateT.run_bind, hget]
  show Except.ok (Except.ok ((s.prototypes receiver).tail.contains p), s) = _
  rw [hchain]

/-- What a call as constructor gives for the result of the call. -/
def returned (receiver : ObjId) : Value → ObjId
  | .object result => result
  | _ => receiver

private theorem Dispatch.outcome_construct {d : Dispatch σ} {scope : ObjId}
    {args : List Value} (h : (createObject f).outcome m = .ok (.ok (some receiver)) m') :
    (d.construct f scope args).outcome m =
      (returned receiver <$> d.call f scope (some receiver) args).outcome m' := by
  rw [construct, Run.outcome_bind, h, map_eq_pure_bind]
  dsimp only
  congr 2
  funext v
  cases v <;> rfl

/-- The prototype of a function through any interleaving of reads, tests, writes and deletions of
it, calls of the function as constructor, and fixings. As long as it is neither written, deleted nor
fixed, all reads show and all constructions use the one default that the first of them has made; a
deleted one stays absent until it is set again; a fixed one withstands writes and deletions; and
what is constructed descends from it. -/
theorem prototype_slot_laws (hf : m.store.function? f = some data) :
    (data.slot = .unset → ∀ op m1 m2 m3, Interleaving f (¬ ·.Changes) m m1 → op.Reads f m1.store →
      SlotStep f op m1 m2 → Interleaving f (¬ ·.Changes) m2 m3 →
      ∃ p, Presents f (some (.object p)) m1 ∧ Presents f (some (.object p)) m3 ∧
        m3.store.ConstructedBy f p) ∧
    (data.immune = false → ∀ m1 m2, SlotStep f (.access .delete) m m1 →
      Interleaving f (¬ ·.Sets) m1 m2 → Presents f none m2) ∧
    (∀ w m1 m2, SlotStep f (.fix w) m m1 → Interleaving f (¬ ·.Fixes) m1 m2 →
      Presents f (some w) m2 ∧
      (∀ v, (PropertyOp.put v).run f "prototype" m2.store = .ok (.done, m2.store)) ∧
      PropertyOp.delete.run f "prototype" m2.store = .ok (.flag false, m2.store)) ∧
    ∀ receiver p m1, Presents f (some (.object p)) m →
      (Dispatch.createObject f).outcome m = .ok (.ok (some receiver)) m1 →
      (∀ (d : Dispatch σ) scope args, (d.construct f scope args).outcome m =
        (returned receiver <$> d.call f scope (some receiver) args).outcome m1) ∧
      ∀ (s : Store) data', receiver.index < s.size → s.proto? receiver = m1.store.proto? receiver →
        s.function? f = some data' → data'.slot = .set (.object p) →
        (StoreM.hasInstance f (.object receiver)).run s = .ok (.ok true, s) := by
  refine ⟨fun hunset op m1 m2 m3 hfirst hreads hop hthen =>
    hfirst.presents_default hf hunset hreads hop hthen, ?_, ?_, ?_⟩
  · intro himmune m1 m2 hdelete hthen
    cases hdelete with | access hrun
    cases hrun
    rw [delete_prototype hf, if_neg (by simp [himmune])] at hthen
    have hf2 := hthen.resisted (Store.function?_setKind hf _) (by simp) fun _ hop =>
      FunctionData.resists_of_deleted rfl hop
    exact presents_shown hf2
  · intro w m1 m2 hfix hthen
    cases hfix
    have hfixed : (m.store.fixPrototype f w).function? f =
        some { data with slot := .set w, immune := true } := by
      rw [Store.fixPrototype, hf]
      exact Store.function?_setKind hf _
    have hf2 := hthen.resisted hfixed (by simp) fun _ hop => FunctionData.resists_of_immune rfl hop
    refine ⟨presents_of_set hf2 rfl, fun v => ?_, ?_⟩
    · rw [PropertyOp.run, put_prototype hf2 rfl]
    · rw [PropertyOp.run, delete_prototype hf2, if_pos rfl]
  · intro receiver p m1 hpresents hcreate
    refine ⟨fun d scope args => Dispatch.outcome_construct hcreate, ?_⟩
    intro s data' hsize hproto hf' hslot
    obtain ⟨r, m', hrun, -, -, -, hmade⟩ := Dispatch.outcome_createObject hf
    cases hrun.symm.trans hcreate
    obtain ⟨-, hlt, hmade⟩ := hmade receiver rfl
    have hshown : m.store.shown data = some (.object p) := by
      obtain ⟨t, hget⟩ := hpresents.get
      rw [Store.get_prototype hf, Except.ok.injEq, Prod.mk.injEq] at hget
      exact PropertyAnswer.value.inj hget.1
    rw [hshown] at hmade
    exact hasInstance_receiver hf' hslot hlt hsize (hproto.trans hmade)

/-- A function that is called as constructor, or whose prototype is deleted, or fixed to null and
then written. -/
theorem prototype_slot_laws_of_function :
    let data : FunctionData :=
      { name := "f", arity := 0, callable := .interpreted default none .deny }
    let s : Store := { objects := #[{ kind := .function data }] }
    let m : Machine Unit := { realm := default, store := s, host := () }
    let fixed := s.fixPrototype ⟨0⟩ .null
    s.function? ⟨0⟩ = some data ∧
      (∃ r m', (Dispatch.createObject ⟨0⟩).outcome m = .ok r m' ∧
        Presents ⟨0⟩ (some (.object ⟨1⟩)) m') ∧
      Presents ⟨0⟩ none { m with store := (s.delete ⟨0⟩ "prototype").2 } ∧
      Presents ⟨0⟩ (some .null) { m with store := fixed.put ⟨0⟩ "prototype" .undefined } := by
  intro data s m fixed
  have hf : m.store.function? ⟨0⟩ = some data := rfl
  obtain ⟨hdefault, hdeleted, hfixed, -⟩ := prototype_slot_laws hf
  refine ⟨hf, ?_, hdeleted rfl _ _ (.access rfl) .refl, (hfixed .null _ _ (.fix m .null) ?_).1⟩
  · obtain ⟨r, m', hrun, -⟩ := Dispatch.outcome_createObject hf
    obtain ⟨p, hbefore, hafter, -⟩ :=
      hdefault rfl .create m m' m' .refl ⟨data, hf, nofun⟩ (.create hrun) .refl
    obtain ⟨t, hget⟩ := hbefore.get
    cases hget
    exact ⟨_, m', hrun, hafter⟩
  · exact .single ⟨.access (.put .undefined), id, .access rfl⟩

end ScriptEngine
