import ScriptEngine.Proofs.ArgumentsAliasing
import ScriptEngine.Proofs.StoreChanges

/-!
# Names are found where they are bound

`Store.bind?` asks which scope has a name, `StoreM.lookup` reads the name from the first scope that
gives a value. Both search the prototypes of each scope. They agree because every kind of object has
a name exactly if it gives a value for it. For a `prototype` that has not been read yet this value
is made by the read; for an alias in an `arguments` object it is the binding of a formal, which is
never lost in the stores that a program can reach.
-/

namespace ScriptEngine

variable {f : FunctionData}

/-- What a function shows as its `prototype`; one that has not had any gets a new object. -/
def PrototypeSlot.settled (fresh : ObjId) : PrototypeSlot → Option Value
  | .unset => some (.object fresh)
  | .set value => some value
  | .deleted => none

namespace Store

/-! ## Stores that a program can reach -/

/-- The stores that are reached by making objects, setting their links, entering and leaving calls
and using their properties. Properties of records are not redefined. -/
inductive Reached : Store → Prop where
  | empty : Reached {}
  /-- A new object of any kind but a record or the `arguments` of one. -/
  | object {s : Store} (hs : Reached s) {o : Object} (ho : o.kind.role = .bystander) :
      Reached (s.push o).2
  /-- A new record, with its `arguments` object. -/
  | record {s : Store} (hs : Reached s) (r : Realm) (function : ObjId) (unit : CompiledUnit)
      (inspection : CallerInspection) (scope : ObjId) (receiver : Option ObjId)
        (args : List Value) :
      Reached (r.newActivation function unit inspection scope receiver args s).2
  | setProto {s : Store} (hs : Reached s) (id : ObjId) (proto : Option ObjId) :
      Reached (s.setProto id proto)
  | setParent {s : Store} (hs : Reached s) (id : ObjId) (parent : Option ObjId) :
      Reached (s.setParent id parent)
  | enter {s : Store} (hs : Reached s) (id : ObjId) : Reached (s.enter id)
  | leave {s t : Store} (hs : Reached s) {id : ObjId} (ht : s.leave id = .ok t) : Reached t
  | put {s : Store} (hs : Reached s) (id : ObjId) (name : String) (value : Value) :
      Reached (s.put id name value)
  | putIndex {s : Store} (hs : Reached s) (id : ObjId) (index : Nat) (value : Value) :
      Reached (s.putIndex id index value)
  | delete {s : Store} (hs : Reached s) (id : ObjId) (name : String) :
      Reached (s.delete id name).2
  | deleteIndex {s : Store} (hs : Reached s) (id : ObjId) (index : Nat) :
      Reached (s.deleteIndex id index).2
  | define {s : Store} (hs : Reached s) {id : ObjId} (hid : s.isActivation id = false)
      (name : String) (p : Property) : Reached (s.define id name p)
  | fixPrototype {s : Store} (hs : Reached s) (id : ObjId) (value : Value) :
      Reached (s.fixPrototype id value)
  /-- A read that makes the prototype of a function. -/
  | settlePrototype {s : Store} (hs : Reached s) (id : ObjId) : Reached (s.settlePrototype id)

/-- Every `arguments` object finds the formals of its unit bound in its record. -/
def Aliased (s : Store) : Prop :=
  ∀ id record unit, (s.kind id).role = .arguments record unit → s.Bound record unit

variable {s t : Store} {id : ObjId} {n : String}

/-- Changes keep aliases within their records. -/
theorem Evolves.aliased (h : s.Evolves t) (hs : s.Aliased) : t.Aliased := by
  intro id record unit hrole
  by_cases hlt : id.index < s.size
  · exact h.bound (hs id record unit ((h.role_eq id hlt).symm.trans hrole))
  · exact h.fresh_arguments id record unit (by omega) hrole

/-- Links between records do not matter to aliases. -/
theorem Aliased.setCaller (hs : s.Aliased) (id : ObjId) (caller innermost : Option ObjId) :
    Aliased { s.setCaller id caller with innermost } := by
  rw [Store.setCaller, activation?]
  cases hkind : s.kind id with
  | activation a =>
    have hlt : id.index < s.size := lt_size_of_role (by rw [hkind]; simp [ObjectKind.role])
    have hkinds : ∀ j, (s.setKind id (.activation { a with caller })).kind j =
        if j = id then .activation { a with caller } else s.kind j :=
      fun j => s.kind_setKind id _ j hlt
    intro j record unit hrole
    show Bound (s.setKind id (.activation { a with caller })) record unit
    change ((s.setKind id (.activation { a with caller })).kind j).role = _ at hrole
    -- The object with the role is not the record that changes, and its own record still is one.
    have hj : j ≠ id := by
      rintro rfl
      rw [hkinds, if_pos rfl] at hrole
      cases hrole
    rw [hkinds, if_neg hj] at hrole
    obtain ⟨⟨data, hdata⟩, hformals⟩ := hs j record unit hrole
    refine ⟨?_, fun m hm => ?_⟩
    · rw [hkinds]
      split
      · exact ⟨_, rfl⟩
      · exact ⟨data, hdata⟩
    · rw [s.properties_setKind _ _ _ hlt]
      exact hformals m hm
  | _ => exact hs

/-- A store that can be reached has its aliases within their records. -/
theorem Reached.aliased (h : s.Reached) : s.Aliased := by
  induction h with
  | empty =>
    intro id record unit hrole
    rw [kind, object_of_size_le (Nat.zero_le _)] at hrole
    cases hrole
  | object _ ho ih =>
    refine (evolves_push (fun data hd => ?_) fun record unit hd => ?_).aliased ih
    all_goals
      rw [ho] at hd
      cases hd
  | record _ r function unit inspection scope receiver args ih =>
    exact (r.evolves_newActivation function unit inspection scope receiver args _).aliased ih
  | setProto _ id proto ih => exact (evolves_setProto _ id proto).aliased ih
  | setParent _ id parent ih => exact (evolves_setParent _ id parent).aliased ih
  | enter _ id ih => exact ih.setCaller id _ _
  | leave _ ht ih =>
    rw [Store.leave] at ht
    split at ht
    · cases ht
      exact ih.setCaller _ _ _
    · cases ht
  | put _ id name value ih => exact (edit_putOwn ..).evolves.aliased ih
  | putIndex _ id index value ih => exact (edit_putIndex ..).evolves.aliased ih
  | delete _ id name ih => exact (edit_delete ..).evolves.aliased ih
  | deleteIndex _ id index ih => exact (edit_deleteIndex ..).evolves.aliased ih
  | define _ hid name p ih => exact (evolves_define name p (by simp [hid])).aliased ih
  | fixPrototype _ id value ih => exact (evolves_fixPrototype _ id value).aliased ih
  | settlePrototype _ id ih => exact (evolves_settlePrototype _ id).aliased ih

/-! ## Reading and having -/

/-- At an index there is a value exactly if the object has the index. -/
theorem Aliased.readIndex_isSome (h : s.Aliased) (id : ObjId) (i : Nat) :
    ∃ v, s.readIndex id i = .ok v ∧ v.isSome = s.hasIndex id i := by
  rw [readIndex, hasIndex]
  cases hkind : s.kind id with
  | array elements => exact ⟨_, rfl, Bool.eq_iff_iff.mpr (by simp)⟩
  | arguments a =>
    dsimp only
    cases he : a.element? i with
    | none => exact ⟨_, rfl, by simp [PropertyMap.has_eq_isSome_get?]⟩
    | some v =>
      dsimp only
      by_cases hal : a.unit.isAliased i
      · -- An alias reads the binding of its formal, which is there.
        obtain ⟨name, hname⟩ := (a.unit.isAliased_iff i).mp hal
        obtain ⟨p, hp, -⟩ := (h id a.activation a.unit (by rw [hkind]; rfl)).2 name hname.mem
        refine ⟨some p.value, ?_, rfl⟩
        rw [if_pos hal, hname.formal_eq, PropertyMap.get?, hp]
        rfl
      · exact ⟨some v, by rw [if_neg hal], rfl⟩
  | _ => exact ⟨_, rfl, (PropertyMap.has_eq_isSome_get? ..).symm⟩

/-- A name that does not stand for the prototype of a function. -/
theorem Aliased.read_isSome (h : s.Aliased) (id : ObjId)
    (hn : n = "prototype" → s.function? id = none) :
    ∃ v, s.read id n = .ok v ∧ v.isSome = s.has id n := by
  have hordinary := PropertyMap.has_eq_isSome_get? (s.properties id) n
  rw [read, has]
  cases hkind : s.kind id with
  | array elements =>
    dsimp only
    split
    · next hlength => exact ⟨_, rfl, by simp [hlength]⟩
    · next hlength =>
      cases arrayIndex? n with
      | some i => simpa [hlength] using h.readIndex_isSome id i
      | none => exact ⟨_, rfl, by simp [hlength, hordinary]⟩
  | function f =>
    dsimp only
    split
    · exact ⟨_, rfl, rfl⟩
    · exact ⟨_, rfl, rfl⟩
    · exact ⟨_, rfl, rfl⟩
    · have hnone := hn rfl
      rw [function?, hkind] at hnone
      cases hnone
    · exact ⟨_, rfl, by simp [hordinary]⟩
    · exact ⟨_, rfl, hordinary.symm⟩
  | arguments a =>
    dsimp only
    split
    · exact ⟨_, rfl, by simp [hordinary]⟩
    · exact ⟨_, rfl, by simp [hordinary]⟩
    · refine ⟨_, rfl, ?_⟩
      rw [callerValue?]
      cases a.caller <;> simp [hordinary]
    · cases arrayIndex? n with
      | some i => exact h.readIndex_isSome id i
      | none => exact ⟨_, rfl, hordinary.symm⟩
  | _ => exact ⟨_, rfl, hordinary.symm⟩

/-- Reading gives an answer, which is a value exactly if the name is there. Without a value the
store stays as it is. -/
def Answers (s : Store) (found : Bool) (m : StoreM (Option Value)) : Prop :=
  ∃ v t, m.run s = .ok (v, t) ∧ v.isSome = found ∧ (found = false → t = s)

theorem kind_eq_of_function? (hf : s.function? id = some f) : s.kind id = .function f := by
  rw [function?] at hf
  split at hf
  · next hkind => rw [hkind, Option.some.inj hf]
  · cases hf

/-- Whether a function has a `prototype`. -/
theorem has_prototype (hf : s.function? id = some f) :
    s.has id "prototype" = (f.slot.settled ⟨s.size⟩).isSome := by
  simp only [has, kind_eq_of_function? hf]
  cases f.slot <;> rfl

/-- Reading the `prototype` of a function. -/
theorem read_settlePrototype (hf : s.function? id = some f) :
    (s.settlePrototype id).read id "prototype" = .ok (f.slot.settled ⟨s.size⟩) ∧
      (f.slot ≠ .unset → s.settlePrototype id = s) := by
  have hkind := kind_eq_of_function? hf
  cases hslot : f.slot with
  | unset =>
    refine ⟨?_, by simp⟩
    have hlt : id.index < s.size := lt_size_of_kind (by simp [hkind])
    simp only [settlePrototype, hf, hslot]
    rw [read, kind_setKind _ _ _ _ (by rw [size_push]; omega), if_pos rfl]
    rfl
  | _ => simp [settlePrototype, hf, hslot, read, hkind, PrototypeSlot.settled]

/-- Reading a property gives a value exactly if the object has it. -/
theorem Aliased.getOwn_run (h : s.Aliased) (id : ObjId) (n : String) :
    s.Answers (s.has id n) (StoreM.getOwn id n) := by
  by_cases hn : n = "prototype" → s.function? id = none
  · obtain ⟨v, hv, hsome⟩ := h.read_isSome id hn
    exact ⟨v, s, by rw [Store.getOwn_run hn, hv]; rfl, hsome, fun _ => rfl⟩
  · obtain ⟨rfl, hf⟩ := Classical.not_imp.mp hn
    obtain ⟨f, hf⟩ := Option.ne_none_iff_exists'.mp hf
    obtain ⟨hread, hsame⟩ := read_settlePrototype hf
    refine ⟨_, _, by rw [getOwn_run_settled, hread]; rfl, (has_prototype hf).symm,
      fun hnot => hsame ?_⟩
    rw [has_prototype hf] at hnot
    intro hslot
    rw [hslot] at hnot
    cases hnot

/-! ## Searches -/

/-- A search reads from the first place that has what is looked for. -/
theorem findSomeM?_run {α : Type} {f : α → StoreM (Option Value)} {found : α → Bool} (l : List α)
    (hf : ∀ o, s.Answers (found o) (f o)) :
    (l.findSomeM? f).run s = match l.find? found with
      | some o => (f o).run s
      | none => .ok (none, s) := by
  induction l with
  | nil => rfl
  | cons o rest ih =>
    obtain ⟨v, t, hrun, hsome, hsame⟩ := hf o
    cases hfound : found o with
    | true =>
      rw [hfound] at hsome
      obtain ⟨w, rfl⟩ := Option.isSome_iff_exists.mp hsome
      rw [List.find?_cons_of_pos hfound]
      simp only [List.findSomeM?, StateT.run_bind, hrun]
      rfl
    | false =>
      rw [hfound] at hsome
      obtain rfl : v = none := by simpa using hsome
      obtain rfl := hsame hfound
      rw [List.find?_cons_of_neg (by simp [hfound]), ← ih]
      simp only [List.findSomeM?, StateT.run_bind, hrun]
      rfl

private theorem Answers.search {α : Type} {f : α → StoreM (Option Value)}
    {found : α → Bool} {l : List α}
    (hf : ∀ o, s.Answers (found o) (f o)) : s.Answers (l.any found) (l.findSomeM? f) := by
  rw [Answers, findSomeM?_run l hf]
  cases hfind : l.find? found with
  | none =>
    have hany : l.any found = false := by simpa using hfind
    exact ⟨none, s, rfl, hany.symm, fun _ => rfl⟩
  | some o =>
    have hany : l.any found = true :=
      List.any_eq_true.mpr ⟨o, List.mem_of_find?_eq_some hfind, List.find?_some hfind⟩
    obtain ⟨v, t, hrun, hsome, -⟩ := hf o
    rw [List.find?_some hfind] at hsome
    exact ⟨v, t, hrun, hsome.trans hany.symm, fun hnot => by rw [hany] at hnot; cases hnot⟩

private theorem Aliased.getProperty_run (h : s.Aliased) (id : ObjId) (n : String) :
    s.Answers (s.hasProperty id n) (StoreM.getProperty id n) :=
  Answers.search fun o => h.getOwn_run o n

/-- A name that nothing binds is not found. -/
theorem Aliased.lookup_unbound (h : s.Aliased) {scope : ObjId} (hbind : s.bind? scope n = none) :
    (StoreM.lookup scope n).run s = .ok (.error (.notDefined n), s) := by
  have hsearch := findSomeM?_run (s.scopes scope) fun o => h.getProperty_run o n
  rw [bind?] at hbind
  rw [hbind] at hsearch
  simp only [StoreM.lookup, StateT.run_bind, StateT.run_get, pure_bind, hsearch]
  rfl

/-- A name that an object binds is read from it. -/
theorem Aliased.lookup_bound (h : s.Aliased) {scope o : ObjId} (hbind : s.bind? scope n = some o) :
    ∃ v t, (StoreM.getProperty o n).run s = .ok (some v, t) ∧
      (StoreM.lookup scope n).run s = .ok (.ok v, t) := by
  have hsearch := findSomeM?_run (s.scopes scope) fun o => h.getProperty_run o n
  rw [bind?] at hbind
  have hfound : s.hasProperty o n = true :=
    List.find?_some (p := fun o => s.hasProperty o n) hbind
  rw [hbind] at hsearch
  obtain ⟨v, t, hrun, hsome, -⟩ := h.getProperty_run o n
  rw [hfound] at hsome
  obtain ⟨w, rfl⟩ := Option.isSome_iff_exists.mp hsome
  refine ⟨w, t, hrun, ?_⟩
  simp only [hrun] at hsearch
  simp only [StoreM.lookup, StateT.run_bind, StateT.run_get, pure_bind, hsearch]
  rfl

end Store

/-- In every store that a program can reach, a name is looked up with a value exactly if it is bound
in a scope that gives this value, and is not defined exactly if no scope binds it. Each object has a
name exactly if it gives a value for it. -/
theorem lookup_agrees_with_bind {s : Store} (hs : s.Reached) (scope : ObjId) (n : String) :
    (∀ v t, (StoreM.lookup scope n).run s = .ok (.ok v, t) ↔
      ∃ o, s.bind? scope n = some o ∧ (StoreM.getProperty o n).run s = .ok (some v, t)) ∧
    (∀ e t, (StoreM.lookup scope n).run s = .ok (.error e, t) ↔
      s.bind? scope n = none ∧ e = .notDefined n ∧ t = s) ∧
    (∃ answer t, (StoreM.lookup scope n).run s = .ok (answer, t)) ∧
    ∀ id, ∃ v t, (StoreM.getOwn id n).run s = .ok (v, t) ∧ (s.has id n = true ↔ v.isSome) := by
  have h := hs.aliased
  have hown : ∀ id, ∃ v t, (StoreM.getOwn id n).run s = .ok (v, t) ∧
      (s.has id n = true ↔ v.isSome) := by
    intro id
    obtain ⟨v, t, hrun, hsome, -⟩ := h.getOwn_run id n
    exact ⟨v, t, hrun, by rw [hsome]⟩
  cases hbind : s.bind? scope n with
  | none =>
    rw [h.lookup_unbound hbind]
    refine ⟨fun v t => by simp, fun e t => by simp [eq_comm], ⟨_, _, rfl⟩, hown⟩
  | some o =>
    obtain ⟨v, t, hrun, hlookup⟩ := h.lookup_bound hbind
    rw [hlookup]
    refine ⟨fun w u => ?_, fun e u => by simp, ⟨_, _, rfl⟩, hown⟩
    constructor
    · intro heq
      cases heq
      exact ⟨o, rfl, hrun⟩
    · rintro ⟨o', ho, hrun'⟩
      cases ho
      rw [hrun] at hrun'
      cases hrun'
      rfl

/-- A function without a `prototype` is the target of a with statement in front of a second
function: the name is found on the second one, whose prototype is made by the look-up. -/
theorem lookup_agrees_with_bind_past_with :
    let function : Object :=
    { kind := .function { name := "f", arity := 0, callable := .native .inert } }
    let s₁ : Store := (Store.push {} function).2
    let s₂ := ((s₁.push function).2.push
      { kind := .withScope, proto := some ⟨0⟩, parent := some ⟨1⟩ }).2
    let s := (s₂.delete ⟨0⟩ "prototype").2
    s.Reached ∧ s.bind? ⟨2⟩ "prototype" = some ⟨1⟩ ∧
      ∃ t, (StoreM.lookup ⟨2⟩ "prototype").run s = .ok (.ok (.object ⟨3⟩), t) := by
  intro function s₁ s₂ s
  have hreached : s.Reached :=
    .delete (.object (.object (.object .empty rfl) rfl) rfl) ⟨0⟩ "prototype"
  refine ⟨hreached, rfl, s.settlePrototype ⟨1⟩, ?_⟩
  exact ((lookup_agrees_with_bind hreached ⟨2⟩ "prototype").1 _ _).mpr ⟨⟨1⟩, rfl, rfl⟩

end ScriptEngine
