import ScriptEngine.Call.Activation
import ScriptEngine.Proofs.IndexedAccess
import ScriptEngine.Proofs.VariableTables

/-!
# Records of calls

What a property map and a store hold after a change, and how names are found in the record of a
call: a record has no prototype, so a name that it binds is found, written and deleted on the record
itself, whatever scope lies behind it.
-/

namespace ScriptEngine

open PropertyMap

variable {name n : String} {m : PropertyMap} {p : Property}

/-! ## Property maps -/

namespace PropertyMap

private theorem lookup_replace (name : String) (p : Property) (entries : List (String × Property))
    (n : String) :
    (replace name p entries).lookup n = if n = name then some p else entries.lookup n := by
  induction entries with
  | nil =>
    simp only [replace, List.lookup_cons, List.lookup_nil]
    split <;> simp_all
  | cons e rest ih =>
    obtain ⟨m, q⟩ := e
    simp only [replace]
    by_cases hm : m = name
    · subst hm
      rw [if_pos rfl, List.lookup_cons, List.lookup_cons]
      split <;> simp_all
    · rw [if_neg hm, List.lookup_cons, List.lookup_cons, ih]
      split <;> simp_all

/-- A definition replaces what was defined under the name. -/
theorem find?_define (m : PropertyMap) (name : String) (p : Property) (n : String) :
    (m.define name p).find? n = if n = name then some p else m.find? n :=
  lookup_replace name p m.entries n

@[simp] theorem find?_empty (n : String) : ({} : PropertyMap).find? n = none := rfl

/-- Writing a name that can be written. -/
theorem find?_put (m : PropertyMap) (name : String) (value : Value)
    (hw : ∀ p, m.find? name = some p → p.writable = true) (n : String) :
    (m.put name value).find? n =
      if n = name then some { (m.find? name).getD { value } with value } else m.find? n := by
  rw [put]
  split
  · next p hp => rw [if_pos (hw p hp), find?_define, hp, Option.getD_some]
  · next hp => rw [find?_define, hp, Option.getD_none]

/-- Writing a property leaves the others alone. -/
theorem find?_put_ne (m : PropertyMap) (value : Value) (hne : n ≠ name) :
    (m.put name value).find? n = m.find? n := by
  simp only [put]
  split
  · split
    · rw [find?_define, if_neg hne]
    · rfl
  · rw [find?_define, if_neg hne]

/-- What is not configurable cannot be deleted. -/
theorem delete_permanent
    (hp : m.find? name = some p) (hc : p.configurable = false) : m.delete name = (false, m) := by
  simp [delete, hp, hc]

/-- Taking out a name leaves the other names. -/
theorem lookup_filter_ne (name n : String) (entries : List (String × Property)) :
    (entries.filter (·.1 ≠ name)).lookup n = if n = name then none else entries.lookup n := by
  induction entries with
  | nil => simp
  | cons e rest ih =>
    obtain ⟨m, q⟩ := e
    by_cases hm : m = name
    · rw [List.filter_cons_of_neg (by simp [hm]), ih, List.lookup_cons]
      split
      · rfl
      · split <;> simp_all
    · rw [List.filter_cons_of_pos (by simp [hm]), List.lookup_cons, List.lookup_cons, ih]
      split <;> simp_all

/-- Deleting a name adds nothing. -/
theorem find?_of_find?_delete (h : (m.delete name).2.find? n = some p) : m.find? n = some p := by
  rw [delete] at h
  split at h
  · split at h
    · rw [find?, lookup_filter_ne] at h
      split at h
      · cases h
      · exact h
    · exact h
  · exact h

end PropertyMap

/-! ## Stores -/

namespace Store

variable (s : Store) (id : ObjId)

@[simp] theorem size_modify (f : Object → Object) : (s.modify id f).size = s.size := by
  simp [modify, size]

/-- A change to one object, read at any object. -/
theorem object_modify (f : Object → Object) (j : ObjId) (hid : id.index < s.size) :
    (s.modify id f).object j = if j = id then f (s.object id) else s.object j := by
  have hlt : id.index < s.objects.size := hid
  simp only [object, modify, Array.getD_eq_getD_getElem?, Array.getElem?_modify]
  by_cases hj : j = id
  · subst hj
    simp [hlt]
  · have : id.index ≠ j.index := fun h => hj (by cases id; cases j; simp_all)
    simp [hj, this]

@[simp] theorem size_setProperties (m : PropertyMap) : (s.setProperties id m).size = s.size := by
  simp [setProperties]

@[simp] theorem size_setKind (k : ObjectKind) : (s.setKind id k).size = s.size := by
  simp [setKind]

theorem object_setProperties (m : PropertyMap) (j : ObjId) (hid : id.index < s.size) :
    (s.setProperties id m).object j =
      if j = id then { s.object id with properties := m } else s.object j :=
  s.object_modify id _ j hid

theorem object_setKind (k : ObjectKind) (j : ObjId) (hid : id.index < s.size) :
    (s.setKind id k).object j = if j = id then { s.object id with kind := k } else s.object j :=
  s.object_modify id _ j hid

theorem kind_setProperties (m : PropertyMap) (j : ObjId) (hid : id.index < s.size) :
    (s.setProperties id m).kind j = s.kind j := by
  rw [kind, s.object_setProperties id m j hid]
  split
  · next h => rw [h, kind]
  · rfl

theorem properties_setProperties (m : PropertyMap) (j : ObjId) (hid : id.index < s.size) :
    (s.setProperties id m).properties j = if j = id then m else s.properties j := by
  rw [properties, s.object_setProperties id m j hid]
  split <;> rfl

theorem kind_setKind (k : ObjectKind) (j : ObjId) (hid : id.index < s.size) :
    (s.setKind id k).kind j = if j = id then k else s.kind j := by
  rw [kind, s.object_setKind id k j hid]
  split <;> rfl

theorem properties_setKind (k : ObjectKind) (j : ObjId) (hid : id.index < s.size) :
    (s.setKind id k).properties j = s.properties j := by
  rw [properties, s.object_setKind id k j hid]
  split
  · next h => rw [h, properties]
  · rfl

@[simp] theorem push_fst (o : Object) : (s.push o).1 = ⟨s.size⟩ := rfl

@[simp] theorem size_push (o : Object) : (s.push o).2.size = s.size + 1 := by
  simp [push, size]

/-- A new object comes behind the others. -/
theorem object_push (o : Object) (j : ObjId) :
    (s.push o).2.object j = if j.index = s.size then o else s.object j := by
  simp only [object, push, size, Array.getD_eq_getD_getElem?, Array.getElem?_push]
  by_cases hj : j.index = s.objects.size <;> simp [hj]

variable {s id}

/-- A walk that starts at a node without a link stops there. -/
theorem walk_single {link : Object → Option ObjId} (hlt : id.index < s.size)
    (h : link (s.object id) = none) : s.walk link s.size (some id) = [id] := by
  obtain ⟨n, hn⟩ := Nat.exists_eq_succ_of_ne_zero (show s.size ≠ 0 by omega)
  rw [hn, walk, h, walk]

/-- A walk begins where it starts. -/
theorem walk_head (link : Object → Option ObjId) (hlt : id.index < s.size) :
    ∃ rest, s.walk link s.size (some id) = id :: rest := by
  obtain ⟨n, hn⟩ := Nat.exists_eq_succ_of_ne_zero (show s.size ≠ 0 by omega)
  exact ⟨_, by rw [hn, walk]⟩

/-! ## Records -/

/-- The object is the record of a call. -/
structure Record (s : Store) (id : ObjId) (data : ActivationData) : Prop where
  lt_size : id.index < s.size
  kind_eq : s.kind id = .activation data
  proto_eq : s.proto? id = none

namespace Record

variable {data : ActivationData} {v : Value}

variable (h : s.Record id data)

include h

/-- A record stays one when its properties change. -/
theorem setProperties (m : PropertyMap) : (s.setProperties id m).Record id data := by
  have ho := s.object_setProperties id m id h.lt_size
  rw [if_pos rfl] at ho
  exact ⟨by simpa using h.lt_size, by rw [kind, ho]; exact h.kind_eq,
    by rw [proto?, ho]; exact h.proto_eq⟩

theorem properties_setProperties (m : PropertyMap) : (s.setProperties id m).properties id = m := by
  rw [properties, s.object_setProperties id m id h.lt_size, if_pos rfl]

private theorem prototypes_eq : s.prototypes id = [id] :=
  walk_single h.lt_size h.proto_eq

private theorem read_eq (n : String) : s.read id n = .ok ((s.properties id).get? n) := by
  simp [read, h.kind_eq]

private theorem has_eq (n : String) : s.has id n = (s.properties id).has n := by
  simp [has, h.kind_eq]

private theorem getOwn_eq (n : String) :
    (StoreM.getOwn id n).run s = .ok ((s.properties id).get? n, s) := by
  rw [getOwn_run fun _ => by simp [function?, h.kind_eq], h.read_eq]
  rfl

/-- A name that the record binds is found there. -/
theorem lookup_eq (hv : (s.properties id).get? n = some v) :
    (StoreM.lookup id n).run s = .ok (.ok v, s) := by
  obtain ⟨rest, hrest⟩ := walk_head (s := s) (·.parent) h.lt_size
  have hown := h.getOwn_eq n
  rw [hv] at hown
  have hprop : (StoreM.getProperty id n).run s = .ok (some v, s) := by
    simp only [StoreM.getProperty, StateT.run_bind, StateT.run_get, pure_bind, h.prototypes_eq,
      List.findSomeM?, hown]
    rfl
  simp only [StoreM.lookup, StateT.run_bind, StateT.run_get, pure_bind, scopes, hrest,
    List.findSomeM?, hprop]
  rfl

/-- A record is written in its own properties. -/
theorem put_eq (n : String) (v : Value) : s.put id n v = s.putOrdinary id n v := by
  rw [put, exposed_eq_self (by simp [isWithScope, h.kind_eq]), putOwn, h.kind_eq]

/-- A name that the record binds is assigned there. -/
theorem assign_eq (hn : (s.properties id).has n = true) (v : Value) :
    s.assign id n v = s.putOrdinary id n v := by
  obtain ⟨rest, hrest⟩ := walk_head (s := s) (·.parent) h.lt_size
  have hb : s.bind? id n = some id := by
    rw [bind?, scopes, hrest]
    simp [hasProperty, h.prototypes_eq, h.has_eq, hn]
  rw [assign, hb, Option.getD_some, h.put_eq]

/-- A record loses properties as a plain object does. -/
theorem delete_eq (n : String) : s.delete id n = s.deleteOrdinary id n := by
  rw [delete, h.kind_eq]

end Record

end Store

/-! ## New records -/

/-- The names of the parameters of a unit. -/
def CompiledUnit.formals (u : CompiledUnit) : List String := u.argNames.take u.argCount

namespace Realm

open VariableTable (lastIndex?)

private theorem find?_bindFormals_aux (args : List Value) (n : String)
    (formals : List String) (k : Nat) (m : PropertyMap) :
    ((formals.zipIdx k).foldl
      (fun m (name, i) => m.define name (.permanent (args.getD i .undefined))) m).find? n =
      ((lastIndex? n formals).map fun i => .permanent (args.getD (k + i) .undefined)).or
        (m.find? n) := by
  induction formals generalizing k m with
  | nil => simp [lastIndex?]
  | cons name rest ih =>
    rw [List.zipIdx_cons, List.foldl_cons, ih, lastIndex?, find?_define]
    cases lastIndex? n rest with
    | some i => simp [Nat.add_assoc, Nat.add_comm 1 i]
    | none =>
      by_cases h : name = n
      · simp [h]
      · simp [h, Ne.symm h]

/-- A formal is bound to the argument at its last place. -/
theorem find?_bindFormals (args : List Value) (formals : List String) (n : String) :
    (bindFormals args formals).find? n =
      (lastIndex? n formals).map fun i => .permanent (args.getD i .undefined) := by
  simpa [bindFormals] using find?_bindFormals_aux args n formals 0 {}

/-- Declared variables do not touch what is bound. -/
theorem find?_bindVariables (names : List String) (m : PropertyMap) (n : String) :
    (bindVariables names m).find? n =
      (m.find? n).or (if n ∈ names then some (.permanent .undefined) else none) := by
  induction names generalizing m with
  | nil => simp [bindVariables]
  | cons name rest ih =>
    rw [bindVariables, List.foldl_cons, ← bindVariables, ih]
    by_cases hn : n = name
    · subst hn
      by_cases hm : m.has n = true
      · obtain ⟨p, hp⟩ := Option.isSome_iff_exists.mp hm
        simp [hm, hp]
      · rw [if_neg hm, find?_define, if_pos rfl]
        have : m.find? n = none := by simpa [has] using hm
        simp [this]
    · have hsame : (if m.has name = true then m
          else m.define name (.permanent .undefined)).find? n = m.find? n := by
        split
        · rfl
        · rw [find?_define, if_neg hn]
      simp [hsame, hn]

variable (r : Realm) (function : ObjId) (unit : CompiledUnit) (inspection : CallerInspection)
  (scope : ObjId) (receiver : Option ObjId) (args : List Value) (s : Store)

/-- What a new record binds to a name. -/
def initialBinding (unit : CompiledUnit) (args : List Value) (arguments : ObjId) (n : String) :
    Option Property :=
  ((lastIndex? n unit.formals).map fun i => .permanent (args.getD i .undefined)).or
    (if n = "arguments" then some (.permanent (.object arguments))
    else if n ∈ unit.argNames.drop unit.argCount then some (.permanent .undefined) else none)

/-- The `arguments` object of a new record. -/
def initialArguments (activation : ObjId) (function : ObjId) (unit : CompiledUnit)
    (inspection : CallerInspection) (args : List Value) : ArgumentsData where
  activation
  unit
  elements := (args.map some).toArray
  length := some (.ofNat args.length)
  callee := some (.object function)
  caller :=
    if !unit.languageVersion.hasLegacyCaller then .missing
    else if inspection = .allow then .lazy
    else .value .null

/-- The record comes first, and behind it its `arguments` object, unless a formal has that name. -/
theorem newActivation_objects :
    ∃ t m, r.newActivation function unit inspection scope receiver args s = (⟨s.size⟩, t) ∧
      s.size < t.size ∧
      t.object ⟨s.size⟩ =
        { kind := .activation { function, receiver, args }, properties := m
          parent := some scope } ∧
      (∀ n, m.find? n = initialBinding unit args ⟨s.size + 1⟩ n) ∧
      ("arguments" ∉ unit.formals → t.size = s.size + 2 ∧ t.object ⟨s.size + 1⟩ =
        { kind := .arguments (initialArguments ⟨s.size⟩ function unit inspection args)
          proto := some r.objectPrototype
          parent := some scope }) := by
  let locals := unit.argNames.drop unit.argCount
  let bound := bindFormals args unit.formals
  let record : Object :=
    { kind := .activation { function, receiver, args }, properties := bound, parent := some scope }
  let s1 := (s.push record).2
  have hsize1 : s1.size = s.size + 1 := s.size_push record
  have hrecord : s1.object ⟨s.size⟩ = record := by rw [s.object_push record, if_pos rfl]
  have hprops : s1.properties ⟨s.size⟩ = bound := by rw [Store.properties, hrecord]
  have hhas : bound.has "arguments" = true ↔ "arguments" ∈ unit.formals := by
    rw [has, find?_bindFormals, Option.isSome_map, Option.isSome_iff_ne_none]
    exact Decidable.not_iff_comm.mp VariableTable.lastIndex?_eq_none_iff.symm
  -- In the end the variables are bound.
  let finish (s2 : Store) : Store :=
    s2.setProperties ⟨s.size⟩ (bindVariables locals (s2.properties ⟨s.size⟩))
  let data : ActivationData := { function, receiver, args }
  have hmade : r.newActivation function unit inspection scope receiver args s =
      (⟨s.size⟩, finish (if (s1.properties ⟨s.size⟩).has "arguments" then s1
        else (r.newArguments ⟨s.size⟩ data unit inspection s1).2.define ⟨s.size⟩ "arguments"
          (.permanent (.object (r.newArguments ⟨s.size⟩ data unit inspection s1).1)))) := rfl
  by_cases hformal : "arguments" ∈ unit.formals
  · -- A formal takes the place of the `arguments` object.
    refine ⟨s1.setProperties ⟨s.size⟩ (bindVariables locals bound), bindVariables locals bound,
      ?_, ?_, ?_, fun n => ?_, fun h => absurd hformal h⟩
    · rw [← hhas, ← hprops] at hformal
      rw [hmade, if_pos hformal, ← hprops]
    · rw [Store.size_setProperties, hsize1]
      omega
    · rw [s1.object_setProperties _ _ _ (by simp [hsize1]), if_pos rfl, hrecord]
    · rw [find?_bindVariables, find?_bindFormals, initialBinding]
      by_cases hn : n = "arguments"
      · subst hn
        cases h : lastIndex? "arguments" unit.formals with
        | none => exact absurd hformal (VariableTable.lastIndex?_eq_none_iff.mp h)
        | some i => rfl
      · rw [if_neg hn]
  · let arguments : Object :=
      { kind := .arguments (initialArguments ⟨s.size⟩ function unit inspection args)
        proto := some r.objectPrototype
        parent := some scope }
    let s2 := (s1.push arguments).2
    have hsize2 : s2.size = s.size + 2 := by rw [s1.size_push arguments, hsize1]
    have hrecord2 : s2.object ⟨s.size⟩ = record := by
      rw [s1.object_push arguments, if_neg (by simp [hsize1]), hrecord]
    let full := bound.define "arguments" (.permanent (.object ⟨s.size + 1⟩))
    have hnew : r.newArguments ⟨s.size⟩ data unit inspection s1 =
        (⟨s.size + 1⟩, s2) := by
      have hparent : s1.parent? ⟨s.size⟩ = some scope := by rw [Store.parent?, hrecord]
      rw [newArguments, hparent, ← hsize1]
      rfl
    let s3 := s2.setProperties ⟨s.size⟩ full
    have hprops2 : s2.properties ⟨s.size⟩ = bound := by rw [Store.properties, hrecord2]
    have hrecord3 : s3.object ⟨s.size⟩ = { record with properties := full } := by
      rw [s2.object_setProperties _ _ _ (by simp [hsize2]), if_pos rfl, hrecord2]
    have hprops3 : s3.properties ⟨s.size⟩ = full := by rw [Store.properties, hrecord3]
    have hsize3 : s3.size = s.size + 2 := by rw [Store.size_setProperties, hsize2]
    refine ⟨s3.setProperties ⟨s.size⟩ (bindVariables locals full), bindVariables locals full,
      ?_, ?_, ?_, fun n => ?_, fun _ => ⟨?_, ?_⟩⟩
    · rw [← hhas, ← hprops] at hformal
      rw [hmade, if_neg hformal, hnew, ← hprops3, Store.define, hprops2]
    · rw [Store.size_setProperties, hsize3]
      omega
    · rw [s3.object_setProperties _ _ _ (by simp [hsize3]), if_pos rfl, hrecord3]
    · rw [find?_bindVariables, find?_define, find?_bindFormals, initialBinding]
      by_cases hn : n = "arguments"
      · subst hn
        rw [VariableTable.lastIndex?_eq_none_iff.mpr hformal]
        rfl
      · rw [if_neg hn, if_neg hn]
    · rw [Store.size_setProperties, hsize3]
    · rw [s3.object_setProperties _ _ _ (by simp [hsize3]), if_neg (by simp),
        s2.object_setProperties _ _ _ (by simp [hsize2]), if_neg (by simp),
        s1.object_push arguments, if_pos hsize1.symm]

end Realm

end ScriptEngine
