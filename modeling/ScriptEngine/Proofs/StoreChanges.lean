import ScriptEngine.Call.Invoke
import ScriptEngine.Proofs.CallRecords

/-!
# What changes a store

Objects are never taken away, and most operations leave the records of calls and their `arguments`
objects what they are. `Store.Evolves` says this once, together with what new objects can be; all
that holds of calls and aliases in the stores that a program can reach is derived from it.

## Key results

- `Store.Evolves.trans`: changes in sequence
- `Store.edit_putOwn`, `Store.edit_putIndex`, `Store.edit_delete`, `Store.edit_deleteIndex`: what
access to properties can do
- `Realm.evolves_newActivation`: a new record binds its formals, and nothing deletes these bindings
-/

namespace ScriptEngine

variable {m : PropertyMap} {n : String} {data : ActivationData} {f : Object → Object}

/-- What an object is to calls. -/
inductive CallRole where
  | bystander
  | record (data : ActivationData)
  | arguments (activation : ObjId) (unit : CompiledUnit)

def ObjectKind.role : ObjectKind → CallRole
  | .activation data => .record data
  | .arguments a => .arguments a.activation a.unit
  | _ => .bystander

/-- The names that an object keeps apart from its named properties: the indices of an array, those
of the elements that an `arguments` object still has, and the `prototype` of a function. -/
def ObjectKind.Reserves : ObjectKind → String → Prop
  | .array _, name => (arrayIndex? name).isSome
  | .arguments a, name => ∃ i, arrayIndex? name = some i ∧ (a.element? i).isSome
  | .function _, name => name = "prototype"
  | _, _ => False

/-- Access to a name does not show the calls under way: on a function whose callers are not to be
seen, or on an `arguments` object that does not look its caller up. -/
def ObjectKind.Hides : ObjectKind → String → Prop
  | .function f, name => ∃ unit closure, f.callable = .interpreted unit closure .deny ∧
      (name = "length" → unit.languageVersion ≠ .v12)
  | .arguments a, _ => a.caller ≠ .lazy
  | _, _ => False

/-- Elements that were deleted do not come back. -/
theorem ArgumentsData.isSome_of_setElement (a : ArgumentsData) {i j : Nat} {v : Option Value}
    (hv : v.isSome → (a.element? i).isSome) (h : ((a.setElement i v).element? j).isSome) :
    (a.element? j).isSome := by
  simp only [element?, setElement, Array.getElem?_setIfInBounds] at h hv ⊢
  split at h
  · next hij =>
    subst hij
    split at h
    · exact hv (by simpa using h)
    · cases h
  · exact h

/-! ## Property maps -/

namespace PropertyMap

/-- The property is there and cannot be deleted. -/
def Binds (m : PropertyMap) (name : String) : Prop :=
  ∃ p, m.find? name = some p ∧ p.configurable = false

/-- A map has what it gives a value for. -/
theorem has_eq_isSome_get? (m : PropertyMap) (n : String) : m.has n = (m.get? n).isSome := by
  rw [has, get?, Option.isSome_map]

private theorem Binds.put (h : m.Binds n) (name : String) (value : Value) :
    (m.put name value).Binds n := by
  obtain ⟨p, hp, hc⟩ := h
  by_cases hn : n = name
  · subst hn
    rw [PropertyMap.put, hp]
    by_cases hw : p.writable
    · exact ⟨{ p with value }, by simp [hw, find?_define], hc⟩
    · exact ⟨p, by simp [hw, hp], hc⟩
  · exact ⟨p, by rw [find?_put_ne _ _ hn, hp], hc⟩

private theorem Binds.delete (h : m.Binds n) (name : String) : (m.delete name).2.Binds n := by
  obtain ⟨p, hp, hc⟩ := h
  by_cases hn : n = name
  · subst hn
    rw [delete_permanent hp hc]
    exact ⟨p, hp, hc⟩
  · refine ⟨p, ?_, hc⟩
    rw [PropertyMap.delete]
    split
    · split
      · rw [find?, lookup_filter_ne, if_neg hn]
        exact hp
      · exact hp
    · exact hp

end PropertyMap

namespace Store

variable {s t u : Store} {id j : ObjId}

/-! ## Objects that are not there -/

theorem object_of_size_le (h : s.size ≤ id.index) : s.object id = default := by
  rw [object, Array.getD_eq_getD_getElem?, Array.getElem?_eq_none h]
  rfl

/-- An object that is not a plain one has been made. -/
theorem lt_size_of_kind (h : s.kind id ≠ .plain "Object" none) : id.index < s.size :=
  Nat.lt_of_not_le fun hle => h (by rw [kind, object_of_size_le hle]; rfl)

theorem lt_size_of_role (h : (s.kind id).role ≠ .bystander) : id.index < s.size :=
  lt_size_of_kind fun hkind => h (by rw [hkind]; rfl)

/-- The records of calls, by their role. -/
theorem activation?_eq_some_iff :
    s.activation? id = some data ↔ (s.kind id).role = .record data := by
  rw [activation?]
  cases s.kind id <;> simp [ObjectKind.role]

theorem lt_size_of_activation? (h : s.activation? id = some data) : id.index < s.size :=
  lt_size_of_role (by rw [activation?_eq_some_iff.mp h]; simp)

/-- A change behind the last object changes nothing. -/
theorem modify_of_size_le (h : s.size ≤ id.index) (f : Object → Object) : s.modify id f = s := by
  have hsame : s.objects.modify id.index f = s.objects := by
    refine Array.ext_getElem? fun i => ?_
    rw [Array.getElem?_modify]
    split
    · next hi => rw [← hi, Array.getElem?_eq_none h]; rfl
    · rfl
  rw [modify, hsame]

/-- A change to one object leaves the others alone. -/
theorem object_modify_ne (s : Store) (f : Object → Object) (h : j ≠ id) :
    (s.modify id f).object j = s.object j := by
  by_cases hid : id.index < s.size
  · rw [s.object_modify id f j hid, if_neg h]
  · rw [modify_of_size_le (by omega)]

/-- A part of the object that the change leaves alone. -/
theorem part_modify {α : Type} (part : Object → α) (h : part (f (s.object id)) = part (s.object id))
    (j : ObjId) : part ((s.modify id f).object j) = part (s.object j) := by
  by_cases hj : j = id
  · subst hj
    by_cases hid : j.index < s.size
    · rw [s.object_modify j f j hid, if_pos rfl, h]
    · rw [modify_of_size_le (by omega)]
  · rw [s.object_modify_ne f hj]

/-! ## Changes -/

/-- The formals of a unit are bound in a record for good. -/
def Bound (s : Store) (record : ObjId) (unit : CompiledUnit) : Prop :=
  (∃ data, (s.kind record).role = .record data) ∧
    ∀ n ∈ unit.formals, (s.properties record).Binds n

/-- A change of the store that keeps the roles of its objects, and the bindings of records that
cannot be deleted. New records have no caller, and new `arguments` objects find the formals
bound. -/
structure Evolves (s t : Store) : Prop where
  size_le : s.size ≤ t.size
  innermost_eq : t.innermost = s.innermost
  role_eq : ∀ id, id.index < s.size → (t.kind id).role = (s.kind id).role
  binds : ∀ id data n, (s.kind id).role = .record data → (s.properties id).Binds n →
    (t.properties id).Binds n
  fresh_record : ∀ id data, s.size ≤ id.index → (t.kind id).role = .record data → data.caller = none
  fresh_arguments : ∀ id record unit, s.size ≤ id.index →
    (t.kind id).role = .arguments record unit → t.Bound record unit

/-- A record stays bound to its unit. -/
theorem Evolves.bound (h : s.Evolves t) {record : ObjId} {unit : CompiledUnit}
    (hb : s.Bound record unit) : t.Bound record unit := by
  obtain ⟨⟨data, hdata⟩, hformals⟩ := hb
  have hlt : record.index < s.size := lt_size_of_role (by rw [hdata]; simp)
  exact ⟨⟨data, (h.role_eq record hlt).trans hdata⟩,
    fun n hn => h.binds record data n hdata (hformals n hn)⟩

theorem Evolves.refl (s : Store) : s.Evolves s where
  size_le := Nat.le_refl _
  innermost_eq := rfl
  role_eq _ _ := rfl
  binds _ _ _ _ h := h
  fresh_record id data hle hrole := absurd (lt_size_of_role (by rw [hrole]; simp)) (by omega)
  fresh_arguments id _ _ hle hrole := absurd (lt_size_of_role (by rw [hrole]; simp)) (by omega)

private theorem Evolves.trans (h : s.Evolves t) (h' : t.Evolves u) : s.Evolves u where
  size_le := Nat.le_trans h.size_le h'.size_le
  innermost_eq := h'.innermost_eq.trans h.innermost_eq
  role_eq id hlt := (h'.role_eq id (Nat.lt_of_lt_of_le hlt h.size_le)).trans (h.role_eq id hlt)
  binds id data n hrole hn := by
    have hlt : id.index < s.size := lt_size_of_role (by rw [hrole]; simp)
    exact h'.binds id data n ((h.role_eq id hlt).trans hrole) (h.binds id data n hrole hn)
  fresh_record id data hle hrole := by
    -- The object is new in the second change, or was new in the first one.
    by_cases hlt : id.index < t.size
    · exact h.fresh_record id data hle ((h'.role_eq id hlt).symm.trans hrole)
    · exact h'.fresh_record id data (by omega) hrole
  fresh_arguments id record unit hle hrole := by
    by_cases hlt : id.index < t.size
    · exact h'.bound (h.fresh_arguments id record unit hle ((h'.role_eq id hlt).symm.trans hrole))
    · exact h'.fresh_arguments id record unit (by omega) hrole

/-- A change of one object that keeps its role. -/
theorem evolves_modify
    (hrole : (f (s.object id)).kind.role = (s.kind id).role)
    (hbinds : ∀ data n, (s.kind id).role = .record data → (s.properties id).Binds n →
      (f (s.object id)).properties.Binds n) :
    s.Evolves (s.modify id f) := by
  have hroles : ∀ j, ((s.modify id f).kind j).role = (s.kind j).role :=
    part_modify (fun o => o.kind.role) hrole
  refine ⟨by simp, rfl, fun j _ => hroles j, fun j data n hdata hn => ?_, fun j data hle hnew => ?_,
    fun j record unit hle hnew => ?_⟩
  · by_cases hj : j = id
    · subst hj
      have hlt : j.index < s.size := lt_size_of_role (by rw [hdata]; simp)
      rw [properties, s.object_modify j f j hlt, if_pos rfl]
      exact hbinds data n hdata hn
    · rw [properties, s.object_modify_ne f hj]
      exact hn
  · exact (Evolves.refl s).fresh_record j data hle ((hroles j).symm.trans hnew)
  · have hlt : j.index < s.size := lt_size_of_role (by rw [← hroles j, hnew]; simp)
    omega

private theorem evolves_setProperties
    (h : ∀ data n, (s.kind id).role = .record data → (s.properties id).Binds n → m.Binds n) :
    s.Evolves (s.setProperties id m) :=
  evolves_modify rfl h

private theorem evolves_setKind {k : ObjectKind} (h : k.role = (s.kind id).role) :
    s.Evolves (s.setKind id k) :=
  evolves_modify h fun _ _ _ hn => hn

theorem evolves_setProto (s : Store) (id : ObjId) (proto : Option ObjId) :
    s.Evolves (s.setProto id proto) :=
  evolves_modify rfl fun _ _ _ hn => hn

theorem evolves_setParent (s : Store) (id : ObjId) (parent : Option ObjId) :
    s.Evolves (s.setParent id parent) :=
  evolves_modify rfl fun _ _ _ hn => hn

theorem object_push_lt (s : Store) (o : Object) (h : id.index < s.size) :
    (s.push o).2.object id = s.object id := by
  rw [s.object_push o, if_neg (by omega)]

/-- A new object. -/
theorem evolves_push {o : Object}
    (hrecord : ∀ data, o.kind.role = .record data → data.caller = none)
    (harguments : ∀ record unit, o.kind.role = .arguments record unit → s.Bound record unit) :
    s.Evolves (s.push o).2 := by
  have hroles : ∀ j, j.index < s.size → ((s.push o).2.kind j).role = (s.kind j).role := by
    intro j hlt
    rw [kind, s.object_push_lt o hlt, kind]
  have hbinds : ∀ j data n, (s.kind j).role = .record data → (s.properties j).Binds n →
      ((s.push o).2.properties j).Binds n := by
    intro j data n hdata hn
    have hlt : j.index < s.size := lt_size_of_role (by rw [hdata]; simp)
    rw [properties, s.object_push_lt o hlt]
    exact hn
  refine ⟨by simp, rfl, hroles, hbinds, fun j data hle hnew => ?_, fun j record unit hle hnew => ?_⟩
  · by_cases hj : j.index = s.size
    · rw [kind, s.object_push o, if_pos hj] at hnew
      exact hrecord data hnew
    · rw [kind, s.object_push o, if_neg hj] at hnew
      exact (Evolves.refl s).fresh_record j data hle hnew
  · by_cases hj : j.index = s.size
    · rw [kind, s.object_push o, if_pos hj] at hnew
      obtain ⟨⟨data, hdata⟩, hformals⟩ := harguments record unit hnew
      have hlt : record.index < s.size := lt_size_of_role (by rw [hdata]; simp)
      exact ⟨⟨data, (hroles record hlt).trans hdata⟩,
        fun n hn => hbinds record data n hdata (hformals n hn)⟩
    · rw [kind, s.object_push o, if_neg hj] at hnew
      have hlt : j.index < s.size := lt_size_of_role (by rw [kind, hnew]; simp)
      omega

/-! ## Access to properties -/

/-- What access to an object can do: give it another kind of the same role, write or delete a named
property, or write a formal in the record that an `arguments` object belongs to. -/
inductive Edit (s : Store) (id : ObjId) : Store → Prop
  | none : Edit s id s
  | kind {k k' : ObjectKind} (hkind : s.kind id = k) (hrole : k'.role = k.role)
      (hnames : ∀ n, k'.Reserves n → k.Reserves n) (hhides : ∀ n, k.Hides n → k'.Hides n) :
      Edit s id (s.setKind id k')
  | put {k : ObjectKind} {name : String} (hkind : s.kind id = k) (hname : ¬ k.Reserves name)
      (value : Value) : Edit s id (s.putOrdinary id name value)
  | formal {a : ArgumentsData} (hkind : s.kind id = .arguments a) (name : String) (value : Value) :
      Edit s id (s.putOrdinary a.activation name value)
  | delete (name : String) : Edit s id (s.deleteOrdinary id name).2

/-- Edits keep all roles. -/
theorem Edit.evolves (h : s.Edit id t) : s.Evolves t := by
  cases h with
  | none => exact .refl s
  | kind hkind hrole => exact evolves_setKind (by rw [hkind, hrole])
  | put => exact evolves_setProperties fun _ _ _ hn => hn.put ..
  | formal => exact evolves_setProperties fun _ _ _ hn => hn.put ..
  | delete => exact evolves_setProperties fun _ _ _ hn => hn.delete _

/-- A change of one object that leaves its links alone: the object itself or the record of a
call. -/
theorem Edit.eq_modify (h : s.Edit id t) :
    t = s ∨ ∃ j f, t = s.modify j f ∧ (∀ o, (f o).proto = o.proto) ∧
      (j = id ∨ ∃ a, s.kind id = .arguments a ∧ j = a.activation) := by
  cases h with
  | none => exact .inl rfl
  | kind | put | delete => exact .inr ⟨id, _, rfl, fun _ => rfl, .inl rfl⟩
  | formal hkind => exact .inr ⟨_, _, rfl, fun _ => rfl, .inr ⟨_, hkind, rfl⟩⟩

/-- Edits keep what an object hides. -/
theorem Edit.hides (h : s.Edit id t) (hj : (s.kind j).Hides n) : (t.kind j).Hides n := by
  cases h with
  | none => exact hj
  | kind hkind _ _ hhides =>
    by_cases hid : id.index < s.size
    · rw [s.kind_setKind id _ j hid]
      split
      · next heq => exact hhides n (hkind ▸ heq ▸ hj)
      · exact hj
    · rwa [setKind, modify_of_size_le (by omega)]
  | put | formal | delete =>
    exact (congrArg (ObjectKind.Hides · n) (part_modify (·.kind) rfl j)).mpr hj

/-- Writing an index is an edit. -/
theorem edit_putIndex (s : Store) (id : ObjId) (index : Nat) (value : Value) :
    s.Edit id (s.putIndex id index value) := by
  rw [putIndex]
  cases hkind : s.kind id with
  | array elements => exact .kind hkind rfl (fun _ h => h) fun _ h => h
  | arguments a =>
    dsimp only
    split
    · next hnone =>
      refine .put hkind (fun hin => ?_) value
      obtain ⟨i, hi, hsome⟩ := hin
      rw [← indexName_inj.mp (arrayIndex?_eq_some_iff.mp hi).1] at hsome
      simp_all
    · next hsome =>
      split
      · exact .formal hkind ..
      · refine .kind hkind rfl (fun n hn => ?_) fun _ h => h
        obtain ⟨i, hi, hlive⟩ := hn
        have hset : (a.element? index).isSome := by simpa [Option.isSome_iff_ne_none] using hsome
        exact ⟨i, hi, a.isSome_of_setElement (fun _ => hset) hlive⟩
  | function f => exact .put hkind (indexName_ne rfl) value
  | _ => exact .put hkind (fun h => h) value

/-- Deleting an index is an edit. -/
theorem edit_deleteIndex (s : Store) (id : ObjId) (index : Nat) :
    s.Edit id (s.deleteIndex id index).2 := by
  rw [deleteIndex]
  cases hkind : s.kind id with
  | array elements => exact .kind hkind rfl (fun _ h => h) fun _ h => h
  | arguments a =>
    dsimp only
    split
    · refine .kind hkind rfl (fun n hn => ?_) fun _ h => h
      obtain ⟨i, hi, hlive⟩ := hn
      exact ⟨i, hi, a.isSome_of_setElement (by simp) hlive⟩
    · exact .delete _
  | _ => exact .delete _

/-- Writing a property is an edit. -/
theorem edit_putOwn (s : Store) (id : ObjId) (name : String) (value : Value) :
    s.Edit id (s.putOwn id name value) := by
  rw [putOwn]
  cases hkind : s.kind id with
  | array elements =>
    dsimp only
    split
    · exact .kind hkind rfl (fun _ h => h) fun _ h => h
    · split
      · exact s.edit_putIndex ..
      · next hindex => exact .put hkind (by simp [ObjectKind.Reserves, hindex]) value
  | function f =>
    dsimp only
    split
    · exact .none
    · exact .none
    · exact .none
    · split
      · exact .none
      · exact .kind hkind rfl (fun _ h => h) fun _ h => h
    · next hname => exact .put hkind hname value
  | arguments a =>
    dsimp only
    split
    · exact .kind hkind rfl (fun _ h => h) fun _ h => h
    · exact .kind hkind rfl (fun _ h => h) fun _ h => h
    · exact .kind hkind rfl (fun _ h => h) fun _ _ => by simp [ObjectKind.Hides]
    · split
      · exact s.edit_putIndex ..
      · next hindex => exact .put hkind (by simp [ObjectKind.Reserves, hindex]) value
  | _ => exact .put hkind (fun h => h) value

/-- Deleting a property is an edit. -/
theorem edit_delete (s : Store) (id : ObjId) (name : String) : s.Edit id (s.delete id name).2 := by
  rw [delete]
  cases hkind : s.kind id with
  | array elements =>
    dsimp only
    split
    · exact .none
    · split
      · exact s.edit_deleteIndex ..
      · exact .delete _
  | function f =>
    dsimp only
    split
    · exact .none
    · exact .none
    · exact .none
    · split
      · exact .none
      · exact .kind hkind rfl (fun _ h => h) fun _ h => h
    · exact .delete _
  | arguments a =>
    dsimp only
    split
    · exact .kind hkind rfl (fun _ h => h) fun _ h => h
    · exact .kind hkind rfl (fun _ h => h) fun _ h => h
    · exact .kind hkind rfl (fun _ h => h) fun _ _ => by simp [ObjectKind.Hides]
    · split
      · exact s.edit_deleteIndex ..
      · exact .delete _
  | _ => exact .delete _

/-- A definition replaces what was there, so what a record binds for good must stay so. -/
theorem evolves_define (name : String) (p : Property)
    (h : s.isActivation id = true → (s.properties id).Binds name → p.configurable = false) :
    s.Evolves (s.define id name p) := by
  refine evolves_setProperties fun data n hrole hn => ?_
  rw [PropertyMap.Binds, PropertyMap.find?_define]
  split
  · next heq =>
    refine ⟨p, rfl, h ?_ (heq ▸ hn)⟩
    rw [isActivation, activation?]
    cases hkind : s.kind id with
    | activation a => rfl
    | _ => rw [hkind] at hrole; cases hrole
  · exact hn

theorem evolves_fixPrototype (s : Store) (id : ObjId) (value : Value) :
    s.Evolves (s.fixPrototype id value) := by
  rw [fixPrototype, function?]
  cases hkind : s.kind id with
  | function f => exact evolves_setKind (by rw [hkind]; rfl)
  | _ => exact .refl s

/-- Settling a `prototype` keeps all roles. -/
theorem evolves_settlePrototype (s : Store) (id : ObjId) : s.Evolves (s.settlePrototype id) := by
  rw [settlePrototype, function?]
  cases hkind : s.kind id with
  | function f =>
    dsimp only
    split
    · have hlt : id.index < s.size := lt_size_of_kind (by simp [hkind])
      refine (evolves_push (by simp [ObjectKind.role]) (by simp [ObjectKind.role])).trans
        (evolves_setKind ?_)
      rw [kind, object_push_lt _ _ hlt, ← kind, hkind]
      rfl
    · exact .refl s
  | _ => exact .refl s

end Store

/-! ## New records -/

namespace Realm

variable (r : Realm) (function : ObjId) (unit : CompiledUnit) (inspection : CallerInspection)
  (scope : ObjId) (receiver : Option ObjId) (args : List Value) (s : Store)

/-- Formals are bound for good. -/
theorem binds_bindFormals {formals : List String} (hn : n ∈ formals) :
    (bindFormals args formals).Binds n := by
  rw [PropertyMap.Binds, find?_bindFormals]
  cases h : VariableTable.lastIndex? n formals with
  | none => exact absurd hn (VariableTable.lastIndex?_eq_none_iff.mp h)
  | some i => exact ⟨_, rfl, rfl⟩

private theorem binds_bindVariables (names : List String)
    (h : m.Binds n) : (bindVariables names m).Binds n := by
  obtain ⟨p, hp, hc⟩ := h
  exact ⟨p, by rw [find?_bindVariables, hp, Option.some_or], hc⟩

/-- Making the record of a call keeps all roles. -/
theorem evolves_newActivation :
    s.Evolves (r.newActivation function unit inspection scope receiver args s).2 := by
  let data : ActivationData := { function, receiver, args }
  let record : Object :=
    { kind := .activation data, properties := bindFormals args unit.formals, parent := some scope }
  let s1 := (s.push record).2
  have hrecord : s1.object ⟨s.size⟩ = record := by rw [s.object_push record, if_pos rfl]
  have h1 : s.Evolves s1 := by
    refine Store.evolves_push (fun d hd => ?_) fun _ _ hd => by cases hd
    cases hd
    rfl
  have hbound : s1.Bound ⟨s.size⟩ unit := by
    refine ⟨⟨data, by rw [Store.kind, hrecord]; rfl⟩, fun n hn => ?_⟩
    rw [Store.properties, hrecord]
    exact binds_bindFormals args hn
  -- The declared variables come last, whether there is an `arguments` object or not.
  have hvariables : ∀ t : Store, t.Evolves (t.setProperties ⟨s.size⟩
      (bindVariables (unit.argNames.drop unit.argCount) (t.properties ⟨s.size⟩))) :=
    fun t => Store.evolves_setProperties fun _ _ _ hn => binds_bindVariables _ hn
  refine Store.Evolves.trans ?_ (hvariables _)
  show s.Evolves (if (s1.properties ⟨s.size⟩).has "arguments" then s1 else
    (r.newArguments ⟨s.size⟩ data unit inspection s1).2.define ⟨s.size⟩ "arguments"
      (.permanent (.object (r.newArguments ⟨s.size⟩ data unit inspection s1).1)))
  split
  · exact h1
  · refine h1.trans (Store.Evolves.trans (t := (r.newArguments ⟨s.size⟩ data unit inspection s1).2)
      (Store.evolves_push (fun _ hd => by cases hd) fun _ _ hd => ?_) ?_)
    · cases hd
      exact hbound
    · refine Store.evolves_setProperties fun _ n _ hn => ?_
      rw [PropertyMap.Binds, PropertyMap.find?_define]
      split
      · exact ⟨_, rfl, rfl⟩
      · exact hn

end Realm

end ScriptEngine
