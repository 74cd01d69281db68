import ScriptEngine.Call.Frame
import ScriptEngine.Proofs.CallRecords

/-!
# Slots and records

A function without a record of its calls keeps its variables in the slots of a frame, which are
resolved when it is compiled; with a record they are properties that are found by name. Both ways
give the same answers to every sequence of reads, writes and deletions of declared names.
-/

namespace ScriptEngine

open VariableTable ScriptEngine.Frame

/-! ## Variable tables -/

namespace VariableTable

/-- The tables that declarations make. -/
inductive Made : VariableTable → Prop where
  | empty : Made {}
  | parameter {v w : VariableTable} {name : String} (hv : Made v)
      (hw : v.addParameter name = .ok w) : Made w
  | declared {v : VariableTable} (name : String) (hv : Made v) : Made (v.addLocal name).2
  | removed {v : VariableTable} (name : String) (hv : Made v) : Made (v.removeLocal name).2

/-- Such a table holds some parameters and variables. -/
theorem Made.holds {v : VariableTable} (h : v.Made) : ∃ params locals, v.Holds params locals := by
  induction h with
  | empty => exact ⟨[], [], .empty⟩
  | @parameter v w name _ hw ih =>
    obtain ⟨params, locals, h⟩ := ih
    exact ⟨_, TableOp.holds_apply (.parameter name) h hw⟩
  | @declared v name _ ih =>
    obtain ⟨params, locals, h⟩ := ih
    exact ⟨_, TableOp.holds_apply (.declare name) h rfl⟩
  | @removed v name _ ih =>
    obtain ⟨params, locals, h⟩ := ih
    exact ⟨_, TableOp.holds_apply (.remove name) h rfl⟩

end VariableTable

/-! ## Frames -/

namespace Frame

variable {slots : Array Value} {i j : Nat} {v : Value}

private theorem size_setSlot (slots : Array Value) (hi : i < slots.size) (v : Value) :
    (setSlot slots i v).size = slots.size := by
  simp only [setSlot, resizeElements, Array.size_setIfInBounds, Array.size_append,
    Array.size_replicate, Array.take_eq_extract, Array.size_extract]
  omega

private theorem slot_setSlot (hi : i < slots.size) (v : Value) (j : Nat) :
    slot (setSlot slots i v) j = if j = i then v else slot slots j := by
  have hmax : max slots.size (i + 1) = slots.size := by omega
  simp only [slot, setSlot, resizeElements, hmax, Nat.sub_self, Array.replicate_zero,
    Array.append_empty, Array.take_eq_extract, Array.extract_size, Array.getD_eq_getD_getElem?,
    Array.getElem?_setIfInBounds, hi, if_true]
  by_cases h : i = j
  · simp [h]
  · simp [h, Ne.symm h]

private theorem slot_initialVars {unit : CompiledUnit} (args : List Value) (hi : i < unit.maxVars) :
    slot (initialVars unit args) i =
      if i < unit.argCount then args.getD i .undefined else .undefined := by
  simp [slot, initialVars, hi]

end Frame

/-! ## Operations on variables -/

/-- What code does to a variable. -/
inductive VariableOp where
  | read (name : String)
  | write (name : String) (value : Value)
  | delete (name : String)

/-- The outcome of an operation on a variable. -/
inductive VariableAnswer where
  | value (v : Value)
  | failed (error : ScriptError)
  | written
  | deleted (done : Bool)
deriving DecidableEq

namespace VariableOp

/-- The variable of an operation. -/
def name : VariableOp → String
  | read name | write name _ | delete name => name

/-- An operation on the slots of a frame. A local variable is not deleted. -/
def onSlot (f : Frame) (slot : Nat) : VariableOp → VariableAnswer × Frame
  | read _ => (.value (f.getVar slot), f)
  | write _ value => (.written, f.setVar slot value)
  | delete _ => (.deleted false, f)

/-- An operation on a name that is found from a scope. -/
def onScope (scope : ObjId) : VariableOp → StoreM VariableAnswer
  | read name => do
    match ← StoreM.lookup scope name with
    | .ok v => return .value v
    | .error error => return .failed error
  | write name value => do
    modify (·.assign scope name value)
    return .written
  | delete name => do
    let (done, s) := (← get).delete scope name
    set s
    return .deleted done

/-- Operations in sequence, on the slots that a table gives to their names. -/
def runOnSlots (vars : VariableTable) : Frame → List VariableOp → Option
    (List VariableAnswer × Frame)
  | f, [] => some ([], f)
  | f, op :: rest => do
    let slot ← vars.get? op.name
    let (answer, f) := op.onSlot f slot
    let (answers, f) ← runOnSlots vars f rest
    return (answer :: answers, f)

/-- Operations in sequence, on names found from a scope. -/
def runOnScope (scope : ObjId) : List VariableOp → StoreM (List VariableAnswer)
  | [] => return []
  | op :: rest => do
    let answer ← op.onScope scope
    let answers ← runOnScope scope rest
    return answer :: answers

/-- The names that code can use as variables of a function: those that it declares. The name
`arguments` stands for something else, unless a formal has it. -/
def Declares (unit : CompiledUnit) (n : String) : Prop :=
  n ∈ unit.argNames ∧ (n = "arguments" → n ∈ unit.formals)

/-- A frame and a record hold the same values in the slots of names and under these names. -/
structure Agree (unit : CompiledUnit) (vars : VariableTable) (f : Frame) (s : Store)
    (record : ObjId) (data : ActivationData) : Prop where
  isRecord : s.Record record data
  slots : ∀ n i, vars.get? n = some i → i < f.vars.size
  same : ∀ n i, Declares unit n → vars.get? n = some i →
    (s.properties record).find? n = some (.permanent (f.getVar i))

variable {unit : CompiledUnit} {vars : VariableTable} {f : Frame} {s : Store} {record : ObjId}
  {data : ActivationData}

/-- A write to a slot and to its name. -/
theorem Agree.write {n : String} {i : Nat} (h : Agree unit vars f s record data)
    (hn : Declares unit n) (hi : vars.get? n = some i) (v : Value) :
    Agree unit vars (f.setVar i v) (s.putOrdinary record n v) record data := by
  have hfound := h.same n i hn hi
  have hwritable : ∀ p, (s.properties record).find? n = some p → p.writable = true := by
    intro p hp
    rw [hfound] at hp
    cases hp
    rfl
  have hslot := h.slots n i hi
  refine ⟨h.isRecord.setProperties _, fun m j hj => ?_, fun m j hm hj => ?_⟩
  · rw [setVar, size_setSlot _ hslot]
    exact h.slots m j hj
  · rw [Store.putOrdinary, h.isRecord.properties_setProperties,
      PropertyMap.find?_put _ _ _ hwritable, getVar, setVar, slot_setSlot hslot]
    by_cases hmn : m = n
    · subst hmn
      rw [hi] at hj
      cases hj
      simp [hfound, Property.permanent]
    · -- Different names have different slots: each is the name at its slot.
      have hji : j ≠ i := by
        rintro rfl
        have hat := getElem?_of_get? hj
        rw [getElem?_of_get? hi] at hat
        exact hmn (Option.some.inj hat).symm
      rw [if_neg hmn, if_neg hji]
      exact h.same m j hm hj

/-- One operation has the same answer on the slots and on the record, and they go on agreeing. -/
theorem step_agrees (op : VariableOp) (h : Agree unit vars f s record data)
    (hn : Declares unit op.name) {i : Nat} (hi : vars.get? op.name = some i) :
    ∃ s', (op.onScope record).run s = .ok ((op.onSlot f i).1, s') ∧
      Agree unit vars (op.onSlot f i).2 s' record data := by
  have hfound := h.same _ i hn hi
  cases op with
  | read n =>
    refine ⟨s, ?_, h⟩
    have hget : (s.properties record).get? n = some (f.getVar i) := by
      rw [PropertyMap.get?, show (s.properties record).find? n = _ from hfound]
      rfl
    simp [onScope, onSlot, h.isRecord.lookup_eq hget]
    rfl
  | write n v =>
    refine ⟨s.putOrdinary record n v, ?_, h.write hn hi v⟩
    have hhas : (s.properties record).has n = true := by
      rw [PropertyMap.has, show (s.properties record).find? n = _ from hfound]
      rfl
    simp [onScope, onSlot, h.isRecord.assign_eq hhas]
    rfl
  | delete n =>
    refine ⟨s.setProperties record (s.properties record), ?_, h.isRecord.setProperties _, h.slots,
      fun m j hm hj => ?_⟩
    · have hdelete : (s.properties record).delete n = (false, s.properties record) :=
        PropertyMap.delete_permanent hfound rfl
      simp [onScope, onSlot, h.isRecord.delete_eq, Store.deleteOrdinary, hdelete]
      rfl
    · rw [h.isRecord.properties_setProperties]
      exact h.same m j hm hj

/-- Sequences of operations. -/
theorem run_agrees (ops : List VariableOp) (h : Agree unit vars f s record data)
    (hnames : vars.names = unit.argNames) (hops : ∀ op ∈ ops, Declares unit op.name) :
    ∃ answers f' s', runOnSlots vars f ops = some (answers, f') ∧
      (runOnScope record ops).run s = .ok (answers, s') ∧ Agree unit vars f' s' record data := by
  induction ops generalizing f s with
  | nil => exact ⟨[], f, s, rfl, rfl, h⟩
  | cons op rest ih =>
    have hn := hops op (by simp)
    obtain ⟨i, hi⟩ : ∃ i, vars.get? op.name = some i := by
      refine Option.ne_none_iff_exists'.mp fun hnone => ?_
      exact get?_eq_none_iff.mp hnone (hnames ▸ hn.1)
    obtain ⟨s1, hrun, h1⟩ := op.step_agrees h hn hi
    obtain ⟨answers, f', s', hslots, hscope, h'⟩ := ih h1 fun o ho => hops o (by simp [ho])
    refine ⟨(op.onSlot f i).1 :: answers, f', s', ?_, ?_, h'⟩
    · simp [runOnSlots, hi, hslots]
    · simp only [runOnScope, StateT.run_bind, hrun]
      simp [Except.bind, bind, hscope]
      rfl

end VariableOp

/-! ## New frames and new records -/

section

variable (r : Realm) (function scope : ObjId) (receiver : Option ObjId)
  (inspection : CallerInspection) (args : List Value) (s : Store)
  (out : Assembler) (body : Body) (nested : List CompiledUnit) (config : Config)
  (fromEvalCode : Bool)

/-- A frame without a record starts with slots for all names. -/
theorem vars_start (hf : body.isFunction = true) :
    (Frame.start (some function) (out.finish body nested config fromEvalCode) scope receiver args
      none).vars = Frame.initialVars (out.finish body nested config fromEvalCode) args := by
  have hfun : (out.finish body nested config fromEvalCode).isFunction = true := hf
  simp [start, hfun]

/-- The first value in the slot of a name. -/
theorem getVar_start (hf : body.isFunction = true) {n : String} {i : Nat}
    (hi : body.vars.get? n = some i) :
    (Frame.start (some function) (out.finish body nested config fromEvalCode) scope receiver args
      none).getVar i =
      if i < body.vars.paramCount then args.getD i .undefined else .undefined := by
  rw [getVar, vars_start function scope receiver args out body nested config fromEvalCode hf]
  exact slot_initialVars args (get?_lt hi)

/-- A frame without a record and a record for the same arguments agree at the start. -/
theorem agree_start (hf : body.isFunction = true) {params locals : List String}
    (hv : body.vars.Holds params locals) {t : Store}
    (ht : r.newActivation function (out.finish body nested config fromEvalCode) inspection scope
      receiver args s = (⟨s.size⟩, t)) :
    VariableOp.Agree (out.finish body nested config fromEvalCode) body.vars
      (.start (some function) (out.finish body nested config fromEvalCode) scope receiver args none)
      t ⟨s.size⟩ { function, receiver, args } := by
  obtain ⟨t', m, hmade, hlt, hobject, hfind, -⟩ := Realm.newActivation_objects r function
    (out.finish body nested config fromEvalCode) inspection scope receiver args s
  obtain rfl : t' = t := by
    rw [ht] at hmade
    exact (Prod.mk.inj hmade).2.symm
  refine ⟨⟨hlt, by rw [Store.kind, hobject], by rw [Store.proto?, hobject]⟩, fun n i hi => ?_,
    fun n i hn hi => ?_⟩
  · rw [vars_start function scope receiver args out body nested config fromEvalCode hf,
      initialVars, Array.size_ofFn]
    exact get?_lt hi
  · have hlast : VariableTable.lastIndex? n
        (out.finish body nested config fromEvalCode).formals = _ := hv.slot hi
    have hmem := List.mem_of_getElem? (getElem?_of_get? hi)
    rw [Store.properties, hobject, hfind, Realm.initialBinding, hlast,
      getVar_start function scope receiver args out body nested config fromEvalCode hf hi]
    by_cases hi' : i < body.vars.paramCount
    · simp [hi']
    · have hnot : n ≠ "arguments" := by
        intro hargs
        rw [if_neg hi'] at hlast
        exact lastIndex?_eq_none_iff.mp hlast (hn.2 hargs)
      have hlocal : n ∈ body.vars.names.drop body.vars.paramCount := by
        rw [← List.take_append_drop body.vars.paramCount body.vars.names, List.mem_append] at hmem
        rw [if_neg hi'] at hlast
        exact hmem.resolve_left (lastIndex?_eq_none_iff.mp hlast)
      simp [hi', hnot, hlocal, Assembler.finish]

/-- The slots of a frame without a record answer every sequence of reads, writes and deletions of
declared names as the record of the same call does. A name starts out with the argument at its last
place among the formals, or undefined. -/
theorem slots_refine_record (hf : body.isFunction = true) (hv : body.vars.Made)
    (ops : List VariableOp)
    (hops : ∀ op ∈ ops,
      VariableOp.Declares (out.finish body nested config fromEvalCode) op.name) :
    let unit := out.finish body nested config fromEvalCode
    let frame := Frame.start (some function) unit scope receiver args none
    let made := r.newActivation function unit inspection scope receiver args s
    (∃ answers frame' s', VariableOp.runOnSlots body.vars frame ops = some (answers, frame') ∧
      (VariableOp.runOnScope made.1 ops).run made.2 = .ok (answers, s')) ∧
    ∀ n, VariableOp.Declares unit n → ∃ slot, body.vars.get? n = some slot ∧
      (StoreM.lookup made.1 n).run made.2 = .ok (.ok (frame.getVar slot), made.2) ∧
      (made.2.delete made.1 n).1 = false ∧
      (∀ i, unit.formals[i]? = some n → (∀ j, i < j → unit.formals[j]? ≠ some n) →
        frame.getVar slot = args.getD i .undefined) ∧
      (n ∉ unit.formals → frame.getVar slot = .undefined) := by
  intro unit frame made
  obtain ⟨params, locals, hv⟩ := hv.holds
  have hmade : made = (⟨s.size⟩, made.2) := by
    obtain ⟨t, m, ht, -⟩ := Realm.newActivation_objects r function unit inspection scope receiver
      args s
    exact Prod.ext (congrArg Prod.fst ht : made.1 = _) rfl
  have hagree : VariableOp.Agree unit body.vars frame made.2 ⟨s.size⟩ _ :=
    agree_start r function scope receiver inspection args s out body nested config fromEvalCode hf
      hv hmade
  have hid : made.1 = ⟨s.size⟩ := congrArg Prod.fst hmade
  rw [hid]
  refine ⟨?_, fun n hn => ?_⟩
  · obtain ⟨answers, frame', s', hslots, hscope, -⟩ := VariableOp.run_agrees ops hagree rfl hops
    exact ⟨answers, frame', s', hslots, hscope⟩
  · obtain ⟨slot, hslot⟩ : ∃ i, body.vars.get? n = some i :=
      Option.ne_none_iff_exists'.mp fun hnone => VariableTable.get?_eq_none_iff.mp hnone hn.1
    have hfound := hagree.same n slot hn hslot
    have hget : (made.2.properties ⟨s.size⟩).get? n = some (frame.getVar slot) := by
      rw [PropertyMap.get?, hfound]
      rfl
    have hlast : VariableTable.lastIndex? n unit.formals = _ := hv.slot hslot
    refine ⟨slot, hslot, hagree.isRecord.lookup_eq hget, ?_, fun i hi hlater => ?_, fun hnot => ?_⟩
    · rw [hagree.isRecord.delete_eq, Store.deleteOrdinary,
        PropertyMap.delete_permanent hfound rfl]
    all_goals
      rw [getVar_start function scope receiver args out body nested config fromEvalCode hf hslot]
    · have hi' : VariableTable.lastIndex? n unit.formals = some i :=
        VariableTable.lastIndex?_eq_some_iff.mpr ⟨hi, hlater⟩
      rw [hlast] at hi'
      split at hi'
      · next hlt =>
        cases hi'
        rw [if_pos hlt]
      · cases hi'
    · rw [← VariableTable.lastIndex?_eq_none_iff, hlast] at hnot
      split at hnot
      · cases hnot
      · next hge => rw [if_neg hge]

end

/-- A call with two arguments of a function with the formals `a`, `b` and again `a`, and a
variable. -/
theorem slots_refine_record_repeated_formal :
    let body : Body :=
      { id := ⟨1⟩, functionType := some .expression, name := "f", root := ⟨0⟩
        vars := { names := ["a", "b", "a", "x"], paramCount := 3 } }
    let unit := ({} : Assembler).finish body [] {} false
    let made := (default : Realm).newActivation ⟨0⟩ unit .allow ⟨1⟩ none [.boolean true, .null] {}
    body.isFunction = true ∧ body.vars.Made ∧
    ∃ s', (VariableOp.runOnScope made.1
        [.read "a", .write "a" (.boolean false), .read "a", .delete "x", .read "b"]).run made.2 =
      .ok ([.value .undefined, .written, .value (.boolean false), .deleted false,
        .value .null], s') := by
  intro body unit made
  have h₁ : VariableTable.Made { names := ["a"], paramCount := 1 } :=
    .parameter .empty (rfl : VariableTable.addParameter {} "a" = _)
  have h₂ : VariableTable.Made { names := ["a", "b"], paramCount := 2 } :=
    .parameter h₁ (rfl : VariableTable.addParameter { names := ["a"], paramCount := 1 } "b" = _)
  have h₃ : VariableTable.Made { names := ["a", "b", "a"], paramCount := 3 } :=
    .parameter h₂ (rfl : VariableTable.addParameter
    { names := ["a", "b"], paramCount := 2 } "a" = _)
  have hvars : body.vars.Made := .declared "x" h₃
  refine ⟨rfl, hvars, ?_⟩
  let ops : List VariableOp :=
    [.read "a", .write "a" (.boolean false), .read "a", .delete "x", .read "b"]
  obtain ⟨answers, frame, s', hslots, hscope⟩ :=
    (slots_refine_record default ⟨0⟩ ⟨1⟩ none .allow [.boolean true, .null] {} {} body [] {} false
      rfl hvars ops (by simp [ops, VariableOp.Declares, VariableOp.name, Assembler.finish, body])).1
  have hanswers : (VariableOp.runOnSlots body.vars
      (.start (some ⟨0⟩) unit ⟨1⟩ none [.boolean true, .null] none) ops).map Prod.fst =
      some [.value .undefined, .written, .value (.boolean false), .deleted false,
        .value .null] := by
    decide +kernel
  rw [hslots, Option.map_some, Option.some.injEq] at hanswers
  subst hanswers
  exact ⟨s', hscope⟩

end ScriptEngine
