import ScriptEngine.Proofs.StoreChanges

/-!
# Hidden callers

A function that is made where its callers are not to be seen shows nothing of the calls under way,
and neither do the `arguments` objects of its calls. So access to their properties has the same
outcome in stores that differ in these calls only, that is in which record is the innermost one and
which record called which. Only the `length` of a function of version 1.2 shows how many arguments
were passed.
-/

namespace ScriptEngine

variable {name : String} {k : ObjectKind} {s : Store} {id : ObjId}

/-! ## Without the calls under way -/

def ObjectKind.uncalled : ObjectKind → ObjectKind
  | .activation a => .activation { a with caller := none }
  | k => k

def Object.uncalled (o : Object) : Object := { o with kind := o.kind.uncalled }

private theorem ObjectKind.Hides.uncalled_eq (h : k.Hides name) : k.uncalled = k := by
  cases k with
  | activation a => exact h.elim
  | _ => rfl

private theorem ObjectKind.hides_uncalled : k.uncalled.Hides name ↔ k.Hides name := by
  cases k <;> rfl

namespace Store

/-- The store without the calls under way: no record has a caller, and none is innermost. -/
def uncalled (s : Store) : Store := { objects := s.objects.map Object.uncalled }

section

variable (s id)

@[simp] theorem size_uncalled : s.uncalled.size = s.size := by simp [size, uncalled]

@[simp] theorem object_uncalled : s.uncalled.object id = (s.object id).uncalled := by
  simp only [object, uncalled, Array.getD_eq_getD_getElem?, Array.getElem?_map]
  cases s.objects[id.index]? <;> rfl

@[simp] theorem properties_uncalled : s.uncalled.properties id = s.properties id := by
  rw [properties, object_uncalled]
  rfl

private theorem kind_uncalled : s.uncalled.kind id = (s.kind id).uncalled := by
  rw [kind, object_uncalled]
  rfl

private theorem walk_proto_uncalled (fuel : Nat) (start : Option ObjId) :
    s.uncalled.walk (·.proto) fuel start = s.walk (·.proto) fuel start := by
  induction fuel generalizing start with
  | zero => cases start <;> rfl
  | succ fuel ih =>
    cases start with
    | none => rfl
    | some id => rw [walk, walk, ih, object_uncalled]; rfl

private theorem modify_uncalled {f g : Object → Object} (h : ∀ o, (f o).uncalled = g o.uncalled) :
    (s.modify id f).uncalled = s.uncalled.modify id g := by
  have hobjects : (s.objects.modify id.index f).map Object.uncalled =
      (s.objects.map Object.uncalled).modify id.index g := by
    refine Array.ext_getElem? fun i => ?_
    simp only [Array.getElem?_map, Array.getElem?_modify]
    split
    · cases s.objects[i]? <;> simp [h]
    · rfl
  rw [uncalled, modify, hobjects]
  rfl

@[simp] theorem setKind_uncalled (k : ObjectKind) :
    (s.setKind id k).uncalled = s.uncalled.setKind id k.uncalled :=
  modify_uncalled s id (g := ({ · with kind := k.uncalled })) fun _ => rfl

@[simp] theorem setProperties_uncalled (m : PropertyMap) :
    (s.setProperties id m).uncalled = s.uncalled.setProperties id m :=
  modify_uncalled s id (g := ({ · with properties := m })) fun _ => rfl

@[simp] theorem putOrdinary_uncalled (name : String) (v : Value) :
    (s.putOrdinary id name v).uncalled = s.uncalled.putOrdinary id name v := by
  simp [putOrdinary]

@[simp] theorem deleteOrdinary_uncalled (name : String) :
    s.uncalled.deleteOrdinary id name =
    ((s.deleteOrdinary id name).1, (s.deleteOrdinary id name).2.uncalled) := by
  simp [deleteOrdinary]

private theorem push_uncalled (o : Object) :
    (s.push o).2.uncalled = (s.uncalled.push o.uncalled).2 := by
  simp [push, uncalled]

private theorem prototypes_uncalled : s.uncalled.prototypes id = s.prototypes id := by
  rw [prototypes, prototypes, walk_proto_uncalled, size_uncalled]

/-! Writes do not look at the calls under way. -/

@[simp] theorem putIndex_uncalled (i : Nat) (v : Value) :
    (s.putIndex id i v).uncalled = s.uncalled.putIndex id i v := by
  rw [putIndex, putIndex, kind_uncalled]
  cases s.kind id <;> simp [ObjectKind.uncalled, apply_ite uncalled]

private theorem putOwn_uncalled (name : String) (v : Value) :
    (s.putOwn id name v).uncalled = s.uncalled.putOwn id name v := by
  rw [putOwn, putOwn, kind_uncalled]
  cases s.kind id with
  | array elements =>
    cases arrayIndex? name <;> simp [ObjectKind.uncalled, apply_ite uncalled]
  | function f =>
    dsimp only [ObjectKind.uncalled]
    split <;> simp [apply_ite uncalled, ObjectKind.uncalled]
  | arguments a =>
    cases arrayIndex? name <;> dsimp only [ObjectKind.uncalled] <;> split <;>
      simp [ObjectKind.uncalled]
  | _ => simp [ObjectKind.uncalled]

@[simp] theorem deleteIndex_uncalled (i : Nat) :
    s.uncalled.deleteIndex id i = ((s.deleteIndex id i).1, (s.deleteIndex id i).2.uncalled) := by
  rw [deleteIndex, deleteIndex, kind_uncalled]
  cases s.kind id with
  | arguments a => by_cases h : (a.element? i).isSome <;> simp [ObjectKind.uncalled, h]
  | _ => simp [ObjectKind.uncalled]

private theorem delete_uncalled (name : String) :
    s.uncalled.delete id name = ((s.delete id name).1, (s.delete id name).2.uncalled) := by
  rw [delete, delete, kind_uncalled]
  cases s.kind id with
  | array elements =>
    by_cases h : name = "length" <;> cases arrayIndex? name <;> simp [ObjectKind.uncalled, h]
  | function f =>
    dsimp only [ObjectKind.uncalled]
    split <;> [skip; skip; skip; cases f.immune; skip] <;> simp [ObjectKind.uncalled]
  | arguments a =>
    cases arrayIndex? name <;> dsimp only [ObjectKind.uncalled] <;> split <;>
      simp [ObjectKind.uncalled]
  | _ => simp [ObjectKind.uncalled]

private theorem settlePrototype_uncalled :
    (s.settlePrototype id).uncalled = s.uncalled.settlePrototype id := by
  have hfunction : s.uncalled.function? id = s.function? id := by
    rw [function?, function?, kind_uncalled]
    cases s.kind id <;> rfl
  rw [settlePrototype, settlePrototype, hfunction]
  split
  · split
    · rw [setKind_uncalled, push_uncalled, prototypes_uncalled]
      simp only [push, size_uncalled]
      rfl
    · rfl
  · rfl

end

/-! ## Objects that hide the calls -/

private theorem read_uncalled (h : (s.kind id).Hides name) :
    s.uncalled.read id name = s.read id name := by
  have hindex : ∀ i, s.uncalled.readIndex id i = s.readIndex id i := fun i => by
    simp only [readIndex, kind_uncalled, h.uncalled_eq, properties_uncalled]
  rw [read, read, kind_uncalled, h.uncalled_eq, properties_uncalled]
  cases hkind : s.kind id with
  | function f =>
    rw [hkind] at h
    obtain ⟨unit, closure, hcallable, hversion⟩ := h
    dsimp only
    split
    · simp [functionLength, hcallable, hversion]
    · rfl
    · rfl
    · rfl
    · simp [reflectedArguments?, hcallable]
    · rfl
  | arguments a =>
    rw [hkind] at h
    have hcaller : s.uncalled.callerValue? a = s.callerValue? a := by
      rw [callerValue?, callerValue?]
      cases hc : a.caller with
      | lazy => exact absurd hc h
      | _ => rfl
    simp only [hindex, hcaller]
  | _ => simp [hkind, ObjectKind.Hides] at h

private theorem has_uncalled (h : (s.kind id).Hides name) :
    s.uncalled.has id name = s.has id name := by
  rw [has, has, kind_uncalled, h.uncalled_eq, properties_uncalled]
  cases hkind : s.kind id with
  | function f =>
    rw [hkind] at h
    obtain ⟨unit, closure, hcallable, -⟩ := h
    simp only [reflectedArguments?, hcallable]
  | arguments a =>
    simp only [hasIndex, kind_uncalled, hkind, ObjectKind.uncalled, properties_uncalled]
  | _ => simp [hkind, ObjectKind.Hides] at h

private theorem hides_settlePrototype {j : ObjId} (h : (s.kind j).Hides name) :
    ((s.settlePrototype id).kind j).Hides name := by
  rw [settlePrototype]
  split
  · next f hf =>
    split
    · have hid : id.index < s.size := lt_size_of_kind fun hk => by simp [function?, hk] at hf
      have hj : j.index < s.size := lt_size_of_kind fun hk => by rw [hk] at h; exact h
      rw [kind_setKind _ _ _ _ (by rw [size_push]; omega)]
      split
      · next heq =>
        subst heq
        rw [function?] at hf
        split at hf
        · next hk => cases hf; rw [hk] at h; exact h
        · cases hf
      · rw [kind, object_push_lt _ _ hj]
        exact h
    · exact h
  · exact h

end Store

/-! ## Operations -/

/-- What is done with a property. -/
inductive PropertyOp where
  | get
  | has
  | put (value : Value)
  | delete

/-- The answer to an operation. -/
inductive PropertyAnswer where
  | value (v : Option Value)
  | flag (b : Bool)
  | done

def PropertyOp.run (id : ObjId) (name : String) (s : Store) :
    PropertyOp → Except Fault (PropertyAnswer × Store)
  | .get => ((StoreM.getOwn id name).run s).map fun (v, t) => (.value v, t)
  | .has => .ok (.flag (s.has id name), s)
  | .put v => .ok (.done, s.put id name v)
  | .delete => .ok (.flag (s.delete id name).1, (s.delete id name).2)

/-- An operation on a property of one object. -/
structure PropertyAccess where
  object : ObjId
  name : String
  op : PropertyOp

/-- Runs operations one after the other. -/
def runAccesses : List PropertyAccess → Store → Except Fault (List PropertyAnswer × Store)
  | [], s => .ok ([], s)
  | a :: rest, s => do
    let (answer, s) ← a.op.run a.object a.name s
    let (answers, s) ← runAccesses rest s
    return (answer :: answers, s)

/-- An outcome, apart from the calls under way. -/
def hideCalls {α : Type} (outcome : Except Fault (α × Store)) : Except Fault (α × Store) :=
  outcome.map fun (a, s) => (a, s.uncalled)

/-- A read, with the prototype of a function made first if it is asked for. -/
theorem Store.getOwn_run_eq (s : Store) (id : ObjId) (name : String) :
    (StoreM.getOwn id name).run s =
      let t := if name = "prototype" then s.settlePrototype id else s
      (t.read id name).map (·, t) := by
  split
  · next hn => rw [hn, Store.getOwn_run_settled]
  · next hn => rw [Store.getOwn_run fun h => absurd h hn]

private theorem PropertyOp.run_uncalled (h : (s.kind id).Hides name) (op : PropertyOp) :
    op.run id name s.uncalled = hideCalls (op.run id name s) ∧
    ∀ answer t, op.run id name s = .ok (answer, t) → ∀ j n, (s.kind j).Hides n →
    (t.kind j).Hides n := by
  cases op with
  | get =>
    let t := if name = "prototype" then s.settlePrototype id else s
    have hhides : ∀ j n, (s.kind j).Hides n → (t.kind j).Hides n := by
      intro j n hj
      simp only [t]
      split
      · exact Store.hides_settlePrototype hj
      · exact hj
    have huncalled : (if name = "prototype" then s.uncalled.settlePrototype id else s.uncalled) =
        t.uncalled := by
      simp only [t, apply_ite Store.uncalled, Store.settlePrototype_uncalled]
    rw [run, run, Store.getOwn_run_eq, Store.getOwn_run_eq]
    simp only [huncalled, Store.read_uncalled (hhides id name h)]
    cases t.read id name with
    | error e => exact ⟨rfl, nofun⟩
    | ok v =>
      refine ⟨rfl, fun answer u hu => ?_⟩
      cases hu
      exact hhides
  | has =>
    refine ⟨by rw [run, Store.has_uncalled h]; rfl, fun answer t ht => ?_⟩
    cases ht
    exact fun _ _ hj => hj
  | put v =>
    have hwith : s.isWithScope id = false ∧ s.uncalled.isWithScope id = false := by
      rw [Store.isWithScope, Store.isWithScope, s.kind_uncalled, h.uncalled_eq]
      cases hkind : s.kind id with
      | withScope => simp [hkind, ObjectKind.Hides] at h
      | _ => exact ⟨rfl, rfl⟩
    refine ⟨?_, fun answer t ht => ?_⟩
    · rw [run, run, Store.put, Store.put, Store.exposed_eq_self hwith.1,
        Store.exposed_eq_self hwith.2, ← Store.putOwn_uncalled]
      rfl
    · cases ht
      exact fun _ _ hj => (s.edit_putOwn ..).hides hj
  | delete =>
    refine ⟨by rw [run, Store.delete_uncalled]; rfl, fun answer t ht => ?_⟩
    cases ht
    exact fun _ _ hj => (s.edit_delete ..).hides hj

private theorem runAccesses_uncalled {accesses : List PropertyAccess}
    (h : ∀ a ∈ accesses, (s.kind a.object).Hides a.name) :
    runAccesses accesses s.uncalled = hideCalls (runAccesses accesses s) := by
  induction accesses generalizing s with
  | nil => rfl
  | cons a rest ih =>
    obtain ⟨hrun, hkeeps⟩ := a.op.run_uncalled (h a (by simp))
    rw [runAccesses, runAccesses, hrun]
    cases hstep : a.op.run a.object a.name s with
    | error e => rfl
    | ok result =>
      obtain ⟨answer, t⟩ := result
      have ih := ih fun b hb => hkeeps answer t hstep b.object b.name (h b (by simp [hb]))
      show (runAccesses rest t.uncalled >>= _) = hideCalls (runAccesses rest t >>= _)
      rw [ih]
      cases runAccesses rest t <;> rfl

/-- A function that is made where callers are not to be seen hides the calls under way, apart from
the `length` of version 1.2, and so do the `arguments` objects of its calls. Any sequence of
operations on such objects has the same answers and effects in two stores that differ in the calls
under way only. -/
theorem denied_inspection_hides_calls :
    (∀ (r : Realm) unit scope closure s name, r.config.callerInspection = .deny →
      (name = "length" → unit.languageVersion ≠ .v12) →
      ((r.newFunction unit scope closure s).2.kind
      (r.newFunction unit scope closure s).1).Hides name) ∧
    (∀ (r : Realm) function unit scope receiver args s name, "arguments" ∉ unit.formals →
      ((r.newActivation function unit .deny scope receiver args s).2.kind
      ⟨s.size + 1⟩).Hides name) ∧
    ∀ s t (accesses : List PropertyAccess), s.uncalled = t.uncalled →
      (∀ a ∈ accesses, (s.kind a.object).Hides a.name) →
      hideCalls (runAccesses accesses s) = hideCalls (runAccesses accesses t) := by
  refine ⟨fun r unit scope closure s name hdeny hlength => ?_,
    fun r function unit scope receiver args s name hformals => ?_, fun s t accesses hst hs => ?_⟩
  · rw [Store.kind, Realm.newFunction, Store.object_push, Store.push_fst, if_pos rfl]
    exact ⟨unit, _, congrArg (Callable.interpreted unit _) hdeny, hlength⟩
  · obtain ⟨t, m, hmade, -, -, -, harguments⟩ :=
      r.newActivation_objects function unit .deny scope receiver args s
    rw [hmade, Store.kind, (harguments hformals).2]
    show (if !unit.languageVersion.hasLegacyCaller then CallerSlot.missing
      else .value .null) ≠ .lazy
    split <;> simp
  · have ht : ∀ a ∈ accesses, (t.kind a.object).Hides a.name := by
      intro a ha
      rw [← ObjectKind.hides_uncalled, ← Store.kind_uncalled, ← hst, Store.kind_uncalled]
      exact ObjectKind.hides_uncalled.mpr (hs a ha)
    rw [← runAccesses_uncalled hs, ← runAccesses_uncalled ht, hst]

/-- Two calls of a function are under way, or none: both times its `arguments` are null. -/
theorem denied_inspection_hides_calls_of_recursion :
    let function : FunctionData :=
      { name := "f", arity := 0, callable := .interpreted default none .deny }
    let record (caller : Option ObjId) : Object :=
      { kind := .activation { function := ⟨0⟩, receiver := none, args := [], caller } }
    let s : Store := { objects := #[{ kind := .function function }, record none, record none] }
    let t : Store :=
      { objects := #[{ kind := .function function }, record none, record (some ⟨1⟩)]
        innermost := some ⟨2⟩ }
    let accesses : List PropertyAccess :=
      [⟨⟨0⟩, "arguments", .put .undefined⟩, ⟨⟨0⟩, "arguments", .get⟩]
    s.uncalled = t.uncalled ∧ t.activationOf? ⟨0⟩ = some ⟨2⟩ ∧
      hideCalls (runAccesses accesses t) = hideCalls (runAccesses accesses s) ∧
      ∃ u, runAccesses accesses t = .ok ([.done, .value (some .null)], u) := by
  intro function record s t accesses
  have hst : s.uncalled = t.uncalled := by
    simp [s, t, record, Store.uncalled, Object.uncalled, ObjectKind.uncalled]
  have hhides : ∀ a ∈ accesses, (s.kind a.object).Hides a.name := by
    intro a ha
    have hobject : a.object = ⟨0⟩ ∧ a.name = "arguments" := by
      simp only [accesses, List.mem_cons, List.not_mem_nil, or_false] at ha
      rcases ha with rfl | rfl <;> exact ⟨rfl, rfl⟩
    rw [hobject.1, hobject.2]
    exact ⟨default, none, rfl, nofun⟩
  exact ⟨hst, rfl, (denied_inspection_hides_calls.2.2 s t accesses hst hhides).symm, _, rfl⟩

end ScriptEngine
