import ScriptEngine.Proofs.CallRecords

/-!
# Aliases in `arguments`

An element of an `arguments` object is an alias of a formal's binding in the record of the call, a
value of its own, or deleted, in which case ordinary properties take its place. What an element is
depends on the unit and on the operations so far only, and nothing that is done to the record or to
the object makes a read fail.
-/

namespace ScriptEngine

open Store

variable {i j : Nat} {name : String} {a b : ArgumentsData} {unit : CompiledUnit}
  {record arguments : ObjId} {data : ActivationData} {s t : Store} {v : Value}

/-! ## Formals -/

namespace CompiledUnit

/-- The index is that of a formal, and no later formal has its name. -/
def IsLastFormal (u : CompiledUnit) (i : Nat) (name : String) : Prop :=
  u.formals[i]? = some name ∧ ∀ j, i < j → u.formals[j]? ≠ some name

/-- Exactly the last formals of their names have aliases. -/
theorem isAliased_iff (u : CompiledUnit) (i : Nat) :
    u.isAliased i = true ↔ ∃ name, u.IsLastFormal i name := by
  have hget : ∀ k, ((u.argNames.take u.argCount).drop i)[k]? = u.formals[i + k]? := fun k => by
    rw [List.getElem?_drop]
    rfl
  rw [isAliased]
  split
  · next name later hdrop =>
    have hat : u.formals[i]? = some name := by
      rw [← Nat.add_zero i, ← hget, hdrop]
      rfl
    have hlater : ∀ k, later[k]? = u.formals[i + (k + 1)]? := fun k => by
      rw [← hget, hdrop]
      rfl
    simp only [Bool.not_eq_true', List.contains_eq_mem, decide_eq_false_iff_not]
    constructor
    · intro hnot
      refine ⟨name, hat, fun j hj hmem => hnot ?_⟩
      obtain ⟨k, rfl⟩ : ∃ k, j = i + (k + 1) := ⟨j - i - 1, by omega⟩
      exact List.mem_of_getElem? ((hlater k).trans hmem)
    · rintro ⟨name', hat', hlast⟩ hmem
      obtain rfl : name = name' := Option.some.inj (hat.symm.trans hat')
      obtain ⟨k, hk⟩ := List.mem_iff_getElem?.mp hmem
      exact hlast (i + (k + 1)) (by omega) ((hlater k).symm.trans hk)
  · next hdrop =>
    simp only [Bool.false_eq_true, false_iff]
    rintro ⟨name, hat, -⟩
    rw [← Nat.add_zero i, ← hget, hdrop] at hat
    cases hat

variable {u : CompiledUnit}

/-- The formal at the index has that name. -/
theorem IsLastFormal.formal_eq (h : u.IsLastFormal i name) : u.formal i = name := by
  have hat := h.1
  rw [formals, List.getElem?_take] at hat
  split at hat
  · rw [formal, argName?, hat, Option.getD_some]
  · cases hat

theorem IsLastFormal.mem (h : u.IsLastFormal i name) : name ∈ u.formals := List.mem_of_getElem? h.1

/-- Different elements that are aliases have different formals. -/
theorem IsLastFormal.index_eq (h : u.IsLastFormal i name) (h' : u.IsLastFormal j name) : i = j := by
  rcases Nat.lt_trichotomy i j with hlt | heq | hgt
  · exact absurd h'.1 (h.2 j hlt)
  · exact heq
  · exact absurd h.1 (h'.2 i hgt)

end CompiledUnit

/-! ## Histories -/

/-- What is done to the bindings of a record and to its `arguments` object. -/
inductive ArgumentsOp where
  /-- Writes to a binding of the record. -/
  | bind (name : String) (value : Value)
  | get (name : String)
  | put (name : String) (value : Value)
  | has (name : String)
  | delete (name : String)
  | getIndex (index : Nat)
  | putIndex (index : Nat) (value : Value)
  | hasIndex (index : Nat)
  | deleteIndex (index : Nat)

/-- The outcome of such an operation. -/
inductive ArgumentsAnswer where
  | done
  | value (found : Option Value)
  | flag (holds : Bool)
deriving DecidableEq

namespace ArgumentsOp

/-- Does an operation. -/
def run (record arguments : ObjId) : ArgumentsOp → StoreM ArgumentsAnswer
  | bind name value => do
    modify (·.put record name value)
    return .done
  | get name => return .value (← StoreM.getOwn arguments name)
  | put name value => do
    modify (·.put arguments name value)
    return .done
  | has name => return .flag ((← MonadState.get).has arguments name)
  | delete name => do
    let (deleted, s) := (← MonadState.get).delete arguments name
    set s
    return .flag deleted
  | getIndex index => do return .value (← (← MonadState.get).readIndex arguments index)
  | putIndex index value => do
    modify (·.putIndex arguments index value)
    return .done
  | hasIndex index => return .flag ((← MonadState.get).hasIndex arguments index)
  | deleteIndex index => do
    let (deleted, s) := (← MonadState.get).deleteIndex arguments index
    set s
    return .flag deleted

/-- Operations in sequence. -/
def runAll (record arguments : ObjId) : List ArgumentsOp → StoreM (List ArgumentsAnswer)
  | [] => return []
  | op :: rest => do
    let answer ← op.run record arguments
    let answers ← runAll record arguments rest
    return answer :: answers

/-- The index that an operation deletes. -/
def deleted? : ArgumentsOp → Option Nat
  | deleteIndex index => some index
  | delete name => arrayIndex? name
  | _ => none

/-- The index that an operation writes, and what it writes there. -/
def written? : ArgumentsOp → Option (Nat × Value)
  | putIndex index value => some (index, value)
  | put name value => (arrayIndex? name).map (·, value)
  | _ => none

/-- The index has been deleted. -/
def deletedIn (history : List ArgumentsOp) (i : Nat) : Bool :=
  history.any fun op => op.deleted? = some i

/-- The value that was written last to an index, or else the original one. -/
def lastWritten (history : List ArgumentsOp) (i : Nat) (original : Value) : Value :=
  history.foldl (fun v op =>
    match op.written? with
    | some (j, w) => if j = i then w else v
    | none => v) original

/-- What a history leaves of an element. The value of an alias is kept in the record, so that
nothing is written to the element itself. -/
def left (unit : CompiledUnit) (args : List Value) (history : List ArgumentsOp) (i : Nat) :
    Option Value :=
  if deletedIn history i then none
  else args[i]?.map fun v => if unit.isAliased i then v else lastWritten history i v

private theorem left_append (unit : CompiledUnit) (args : List Value) (history : List ArgumentsOp)
    (op : ArgumentsOp) (i : Nat) :
    left unit args (history ++ [op]) i =
      if op.deleted? = some i then none
      else match op.written? with
        | some (j, w) =>
          if j = i ∧ unit.isAliased i = false then (left unit args history i).map fun _ => w
          else left unit args history i
        | none => left unit args history i := by
  have hlast (v : Value) : lastWritten (history ++ [op]) i v =
      match op.written? with
      | some (j, w) => if j = i then w else lastWritten history i v
      | none => lastWritten history i v := by simp [lastWritten]
  simp only [left, deletedIn, hlast, List.any_append, List.any_cons, List.any_nil, Bool.or_false,
    Bool.or_eq_true, decide_eq_true_eq]
  grind

end ArgumentsOp

/-! ## States -/

open ArgumentsOp (deletedIn lastWritten)

/-- The elements are those that a history leaves. -/
structure ArgumentsData.Tracks (a : ArgumentsData) (unit : CompiledUnit) (record : ObjId)
    (args : List Value) (history : List ArgumentsOp) : Prop where
  activation_eq : a.activation = record
  unit_eq : a.unit = unit
  element_eq : ∀ i, a.element? i = ArgumentsOp.left unit args history i

/-- A record and its `arguments` object after a history of operations. -/
structure ArgumentsState (unit : CompiledUnit) (record arguments : ObjId) (data : ActivationData)
    (history : List ArgumentsOp) (s : Store) : Prop where
  isRecord : s.Record record data
  ne : arguments ≠ record
  lt_size : arguments.index < s.size
  bound : ∀ n ∈ unit.formals, ∃ p, (s.properties record).find? n = some p ∧ p.writable = true
  ordinary : ∀ n p, (s.properties arguments).find? n = some p → p.writable = true
  tracks : ∃ a, s.kind arguments = .arguments a ∧ a.Tracks unit record data.args history

namespace ArgumentsData

variable {args : List Value}
  {history : List ArgumentsOp} {op : ArgumentsOp}

private theorem lt_size_of_isSome (hi : (a.element? i).isSome) : i < a.elements.size := by
  by_contra hge
  simp [ArgumentsData.element?, Array.getElem?_eq_none (Nat.not_lt.mp hge)] at hi

private theorem element?_setElement (hi : i < a.elements.size) (v : Option Value) (j : Nat) :
    (a.setElement i v).element? j = if j = i then v else a.element? j := by
  simp only [ArgumentsData.element?, ArgumentsData.setElement, Array.getElem?_setIfInBounds]
  by_cases h : i = j
  · subst h
    simp [hi]
  · simp [h, Ne.symm h]

namespace Tracks

variable (h : a.Tracks unit record args history)

include h

private theorem isSome_element? :
    (a.element? i).isSome ↔ deletedIn history i = false ∧ i < args.length := by
  rw [h.element_eq, ArgumentsOp.left]
  cases deletedIn history i <;> simp

private theorem element?_eq_none :
    a.element? i = none ↔ deletedIn history i = true ∨ args.length ≤ i := by
  rw [h.element_eq, ArgumentsOp.left]
  cases deletedIn history i <;> simp

/-- Changes that leave the elements alone. -/
theorem congr (ha : b.activation = a.activation)
    (hu : b.unit = a.unit) (he : b.elements = a.elements) : b.Tracks unit record args history := by
  have helem : ∀ i, b.element? i = a.element? i := fun i => by
    rw [ArgumentsData.element?, he, ArgumentsData.element?]
  exact ⟨ha.trans h.activation_eq, hu.trans h.unit_eq, fun i => (helem i).trans (h.element_eq i)⟩

/-- An operation that neither deletes an element nor writes one that is no alias. -/
theorem append (hd : ∀ i, op.deleted? = some i → a.element? i = none)
    (hw : ∀ i v, op.written? = some (i, v) → a.element? i = none ∨ unit.isAliased i = true) :
    a.Tracks unit record args (history ++ [op]) := by
  refine ⟨h.activation_eq, h.unit_eq, fun i => ?_⟩
  have heq := h.element_eq i
  rw [ArgumentsOp.left_append, ← heq]
  grind

/-- An operation that changes one element. -/
theorem set {w : Option Value} (hi : (a.element? i).isSome)
    (hleft : ∀ j, ArgumentsOp.left unit args (history ++ [op]) j =
      if j = i then w else ArgumentsOp.left unit args history j) :
    (a.setElement i w).Tracks unit record args (history ++ [op]) := by
  refine ⟨h.activation_eq, h.unit_eq, fun j => ?_⟩
  rw [element?_setElement (lt_size_of_isSome hi), hleft, h.element_eq]

/-- A write to an element that is no alias. -/
theorem write (hi : (a.element? i).isSome)
    (hal : unit.isAliased i = false) (hd : op.deleted? = none) (hw : op.written? = some (i, v)) :
    (a.setElement i (some v)).Tracks unit record args (history ++ [op]) := by
  refine h.set hi fun j => ?_
  obtain ⟨u, hu⟩ := Option.isSome_iff_exists.mp (h.element_eq i ▸ hi)
  rw [ArgumentsOp.left_append, hd, hw]
  by_cases hj : j = i
  · simp [hj, hal, hu]
  · simp [hj, Ne.symm hj]

/-- The deletion of an element. -/
theorem delete (hi : (a.element? i).isSome) (hd : op.deleted? = some i) (hw : op.written? = none) :
    (a.setElement i none).Tracks unit record args (history ++ [op]) := by
  refine h.set hi fun j => ?_
  rw [ArgumentsOp.left_append, hd, hw]
  grind

end Tracks

end ArgumentsData

namespace ArgumentsState

variable {history : List ArgumentsOp} {op : ArgumentsOp}

/-! ## Elements -/

/-- What an element is: an alias, a value of its own, or no longer there. -/
theorem element_cases (h : ArgumentsState unit record arguments data history s) (i : Nat) :
    ∃ a, s.kind arguments = .arguments a ∧ a.Tracks unit record data.args history ∧
      ((∃ name p, (a.element? i).isSome ∧ unit.IsLastFormal i name ∧ unit.isAliased i = true ∧
          (s.properties record).find? name = some p ∧ p.writable = true) ∨
        (∃ v, a.element? i = some v ∧ unit.isAliased i = false) ∨ a.element? i = none) := by
  obtain ⟨a, hkind, ha⟩ := h.tracks
  refine ⟨a, hkind, ha, ?_⟩
  cases he : a.element? i with
  | none => exact .inr (.inr rfl)
  | some v =>
    cases hal : unit.isAliased i with
    | false => exact .inr (.inl ⟨v, rfl, rfl⟩)
    | true =>
      obtain ⟨name, hname⟩ := (unit.isAliased_iff i).mp hal
      obtain ⟨p, hp, hw⟩ := h.bound name hname.mem
      exact .inl ⟨name, p, rfl, hname, rfl, hp, hw⟩

section

variable (h : ArgumentsState unit record arguments data history s)
  (hkind : s.kind arguments = .arguments a) (ha : a.Tracks unit record data.args history)

include hkind ha

private theorem readIndex_alias (hi : (a.element? i).isSome) (hname : unit.IsLastFormal i name)
    {p : Property} (hp : (s.properties record).find? name = some p) :
    s.readIndex arguments i = .ok (some p.value) := by
  obtain ⟨v, hv⟩ := Option.isSome_iff_exists.mp hi
  have hal : a.unit.isAliased i = true := by
    rw [ha.unit_eq]
    exact (unit.isAliased_iff i).mpr ⟨name, hname⟩
  have hget : (s.properties a.activation).get? (a.unit.formal i) = some p.value := by
    rw [ha.activation_eq, ha.unit_eq, hname.formal_eq, PropertyMap.get?, hp]
    rfl
  simp [readIndex, hkind, hv, hal, hget]

private theorem readIndex_own (hv : a.element? i = some v) (hal : unit.isAliased i = false) :
    s.readIndex arguments i = .ok (some v) := by
  rw [← ha.unit_eq] at hal
  simp [readIndex, hkind, hv, hal]

omit ha in
private theorem readIndex_gone (hi : a.element? i = none) :
    s.readIndex arguments i = .ok ((s.properties arguments).get? (indexName i)) := by
  simp [readIndex, hkind, hi]

private theorem putIndex_alias (hi : (a.element? i).isSome) (hname : unit.IsLastFormal i name)
    (w : Value) : s.putIndex arguments i w = s.putOrdinary record name w := by
  obtain ⟨v, hv⟩ := Option.isSome_iff_exists.mp hi
  have hal : unit.isAliased i = true := (unit.isAliased_iff i).mpr ⟨name, hname⟩
  simp [putIndex, hkind, hv, hal, ha.activation_eq, ha.unit_eq, hname.formal_eq]

private theorem putIndex_own (hv : a.element? i = some v)
    (hal : unit.isAliased i = false) (w : Value) :
    s.putIndex arguments i w = s.setKind arguments (.arguments (a.setElement i (some w))) := by
  rw [← ha.unit_eq] at hal
  simp [putIndex, hkind, hv, hal]

omit ha in
private theorem putIndex_gone (hi : a.element? i = none) (w : Value) :
    s.putIndex arguments i w = s.putOrdinary arguments (indexName i) w := by
  simp [putIndex, hkind, hi]

omit ha in
private theorem deleteIndex_there (hi : (a.element? i).isSome) :
    s.deleteIndex arguments i = (true, s.setKind arguments (.arguments (a.setElement i none))) := by
  simp [deleteIndex, hkind, hi]

omit ha in
private theorem deleteIndex_gone (hi : a.element? i = none) :
    s.deleteIndex arguments i = s.deleteOrdinary arguments (indexName i) := by
  simp [deleteIndex, hkind, hi]

end

/-! ## Changes -/

section

variable (h : ArgumentsState unit record arguments data history s)

include h

/-- A write to a binding of the record. -/
theorem putRecord (n : String) (w : Value) :
    ArgumentsState unit record arguments data history (s.putOrdinary record n w) := by
  have hlt := h.isRecord.lt_size
  refine ⟨h.isRecord.setProperties _, h.ne, by simpa [putOrdinary] using h.lt_size,
    fun m hm => ?_, fun m p hp => h.ordinary m p ?_, ?_⟩
  · obtain ⟨p, hp, hw⟩ := h.bound m hm
    rw [putOrdinary, h.isRecord.properties_setProperties]
    by_cases hmn : m = n
    · subst hmn
      refine ⟨{ p with value := w }, ?_, hw⟩
      rw [PropertyMap.find?_put _ _ _ (fun q hq => by rw [hp] at hq; cases hq; exact hw),
        if_pos rfl, hp, Option.getD_some]
    · exact ⟨p, by rw [PropertyMap.find?_put_ne _ _ hmn, hp], hw⟩
  · rw [putOrdinary, s.properties_setProperties _ _ _ hlt, if_neg h.ne] at hp
    exact hp
  · rw [putOrdinary, s.kind_setProperties _ _ _ hlt]
    exact h.tracks

/-- A change of the object that leaves the record alone. -/
theorem ofObject {history' : List ArgumentsOp} (hsize : t.size = s.size)
    (hobj : t.object record = s.object record)
    (hordinary : ∀ n p, (t.properties arguments).find? n = some p → p.writable = true)
    (htracks : ∃ a, t.kind arguments = .arguments a ∧ a.Tracks unit record data.args history') :
    ArgumentsState unit record arguments data history' t := by
  have hrec := h.isRecord
  refine ⟨⟨hsize ▸ hrec.lt_size, by rw [kind, hobj]; exact hrec.kind_eq,
    by rw [proto?, hobj]; exact hrec.proto_eq⟩, h.ne, hsize ▸ h.lt_size, ?_, hordinary,
    htracks⟩
  rw [properties, hobj]
  exact h.bound

/-- A change of the ordinary properties of the object. -/
theorem setOrdinary {m : PropertyMap} (hm : ∀ n p, m.find? n = some p → p.writable = true) :
    ArgumentsState unit record arguments data history (s.setProperties arguments m) := by
  have hlt := h.lt_size
  refine h.ofObject (by simp) ?_ ?_ ?_
  · rw [s.object_setProperties _ _ _ hlt, if_neg (Ne.symm h.ne)]
  · rw [s.properties_setProperties _ _ _ hlt, if_pos rfl]
    exact hm
  · rw [s.kind_setProperties _ _ _ hlt]
    exact h.tracks

private theorem putOwn (n : String) (w : Value) :
    ArgumentsState unit record arguments data history (s.putOrdinary arguments n w) := by
  refine h.setOrdinary fun m p hp => ?_
  by_cases hmn : m = n
  · subst hmn
    rw [PropertyMap.find?_put _ _ _ (h.ordinary m), if_pos rfl] at hp
    cases hq : (s.properties arguments).find? m with
    | none =>
      rw [hq] at hp
      cases hp
      rfl
    | some q =>
      rw [hq] at hp
      cases hp
      exact h.ordinary m q hq
  · rw [PropertyMap.find?_put_ne _ _ hmn] at hp
    exact h.ordinary m p hp

private theorem deleteOwn (n : String) :
    ArgumentsState unit record arguments data history (s.deleteOrdinary arguments n).2 :=
  h.setOrdinary fun m p hp => h.ordinary m p (PropertyMap.find?_of_find?_delete hp)

/-- A change of the elements. -/
theorem setData {history' : List ArgumentsOp} (ha : a.Tracks unit record data.args history') :
    ArgumentsState unit record arguments data history' (s.setKind arguments (.arguments a)) := by
  have hlt := h.lt_size
  refine h.ofObject (by simp) ?_ ?_ ⟨a, by rw [s.kind_setKind _ _ _ hlt, if_pos rfl], ha⟩
  · rw [s.object_setKind _ _ _ hlt, if_neg (Ne.symm h.ne)]
  · rw [s.properties_setKind _ _ _ hlt]
    exact h.ordinary

/-- Operations that leave the elements alone. -/
theorem append
    (hd : ∀ a i, s.kind arguments = .arguments a → op.deleted? = some i → a.element? i = none)
    (hw : ∀ a i v, s.kind arguments = .arguments a → op.written? = some (i, v) →
      a.element? i = none ∨ unit.isAliased i = true) :
    ArgumentsState unit record arguments data (history ++ [op]) s := by
  obtain ⟨a, hkind, ha⟩ := h.tracks
  exact ⟨h.isRecord, h.ne, h.lt_size, h.bound, h.ordinary, a, hkind,
    ha.append (fun i => hd a i hkind) fun i v => hw a i v hkind⟩

/-! ## By name -/

private theorem exposed_eq : s.exposed arguments = arguments := by
  obtain ⟨a, hkind, -⟩ := h.tracks
  exact exposed_eq_self (by simp [isWithScope, hkind])

private theorem getOwn_eq (name : String) :
    (StoreM.getOwn arguments name).run s = (s.read arguments name).map (·, s) := by
  obtain ⟨a, hkind, -⟩ := h.tracks
  exact getOwn_run fun _ => by simp [function?, hkind]

/-- Names that are indices are treated as these. -/
theorem byName (hi : arrayIndex? name = some i) :
    s.read arguments name = s.readIndex arguments i ∧
    (∀ v, s.put arguments name v = s.putIndex arguments i v) ∧
    s.has arguments name = s.hasIndex arguments i ∧
    s.delete arguments name = s.deleteIndex arguments i := by
  obtain ⟨hread, hhas, hput, hdelete⟩ := s.access_index arguments hi
  exact ⟨hread, fun v => by rw [put, h.exposed_eq, hput], hhas, hdelete⟩

/-- Other names leave the elements alone. -/
theorem byPlainName (hname : arrayIndex? name = none) :
    (∃ v, s.read arguments name = .ok v) ∧
    (∀ v, ArgumentsState unit record arguments data history (s.put arguments name v)) ∧
    ArgumentsState unit record arguments data history (s.delete arguments name).2 := by
  obtain ⟨a, hkind, ha⟩ := h.tracks
  refine ⟨?_, fun v => ?_, ?_⟩
  · simp only [Store.read, hkind]
    split
    · exact ⟨_, rfl⟩
    · exact ⟨_, rfl⟩
    · exact ⟨_, rfl⟩
    · rw [hname]
      exact ⟨_, rfl⟩
  · rw [put, h.exposed_eq]
    simp only [Store.putOwn, hkind]
    split
    · exact h.setData (ha.congr rfl rfl rfl)
    · exact h.setData (ha.congr rfl rfl rfl)
    · exact h.setData (ha.congr rfl rfl rfl)
    · rw [hname]
      exact h.putOwn name v
  · simp only [delete, hkind]
    split
    · exact h.setData (ha.congr rfl rfl rfl)
    · exact h.setData (ha.congr rfl rfl rfl)
    · exact h.setData (ha.congr rfl rfl rfl)
    · rw [hname]
      exact h.deleteOwn name

/-! ## Operations -/

/-- No read ends in a fault. -/
theorem readIndex_ok (i : Nat) : ∃ v, s.readIndex arguments i = .ok v := by
  obtain ⟨a, hkind, ha, ⟨n, p, hi, hn, -, hp, -⟩ | ⟨v, hv, hal⟩ | hnone⟩ := h.element_cases i
  · exact ⟨_, readIndex_alias hkind ha hi hn hp⟩
  · exact ⟨_, readIndex_own hkind ha hv hal⟩
  · exact ⟨_, readIndex_gone hkind hnone⟩

private theorem read_ok (name : String) : ∃ v, s.read arguments name = .ok v := by
  cases hi : arrayIndex? name with
  | some i =>
    rw [(h.byName hi).1]
    exact h.readIndex_ok i
  | none => exact (h.byPlainName hi).1

/-- An operation that changes nothing. -/
theorem quiet (hd : op.deleted? = none) (hw : op.written? = none) :
    ArgumentsState unit record arguments data (history ++ [op]) s :=
  h.append (fun _ _ _ hi => by rw [hd] at hi; cases hi) fun _ _ _ _ hi => by rw [hw] at hi; cases hi

private theorem write (hd : op.deleted? = none) (hw : op.written? = some (i, v)) :
    ArgumentsState unit record arguments data (history ++ [op]) (s.putIndex arguments i v) := by
  have hnot : ∀ (t : Store) (b : ArgumentsData) (j : Nat), t.kind arguments = .arguments b →
      op.deleted? = some j → b.element? j = none := fun _ _ _ _ hj => by rw [hd] at hj; cases hj
  obtain ⟨a, hkind, ha, ⟨n, p, hi, hn, hal, -, -⟩ | ⟨w, hv, hal⟩ | hnone⟩ := h.element_cases i
  · rw [putIndex_alias hkind ha hi hn]
    refine (h.putRecord n v).append (hnot _) fun b j u _ hj => .inr ?_
    rw [hw] at hj
    cases hj
    exact hal
  · rw [putIndex_own hkind ha hv hal]
    exact h.setData (ha.write (by simp [hv]) hal hd hw)
  · rw [putIndex_gone hkind hnone]
    refine (h.putOwn (indexName i) v).append (hnot _) fun b j u hb hj => .inl ?_
    rw [putOrdinary, s.kind_setProperties _ _ _ h.lt_size, hkind] at hb
    rw [hw] at hj
    cases hj
    cases hb
    exact hnone

private theorem delete (hd : op.deleted? = some i) (hw : op.written? = none) :
    ArgumentsState unit record arguments data (history ++ [op])
      (s.deleteIndex arguments i).2 := by
  obtain ⟨a, hkind, ha⟩ := h.tracks
  cases hi : a.element? i with
  | some v =>
    rw [deleteIndex_there hkind (by simp [hi])]
    exact h.setData (ha.delete (by simp [hi]) hd hw)
  | none =>
    rw [deleteIndex_gone hkind hi]
    refine (h.deleteOwn (indexName i)).append (fun b j hb hj => ?_)
      fun _ _ _ _ hj => by rw [hw] at hj; cases hj
    rw [deleteOrdinary, s.kind_setProperties _ _ _ h.lt_size, hkind] at hb
    rw [hd] at hj
    cases hj
    cases hb
    exact hi

end

/-- One operation succeeds, and the state is that of the longer history. -/
theorem step (h : ArgumentsState unit record arguments data history s) (op : ArgumentsOp) :
    ∃ answer s', (op.run record arguments).run s = .ok (answer, s') ∧
      ArgumentsState unit record arguments data (history ++ [op]) s' := by
  cases op with
  | bind name v =>
    refine ⟨.done, s.put record name v, rfl, ?_⟩
    rw [h.isRecord.put_eq]
    exact (h.putRecord name v).quiet rfl rfl
  | get name =>
    obtain ⟨v, hv⟩ := h.read_ok name
    refine ⟨.value v, s, ?_, h.quiet rfl rfl⟩
    simp only [ArgumentsOp.run, StateT.run_bind, h.getOwn_eq, hv]
    rfl
  | put name v =>
    refine ⟨.done, s.put arguments name v, rfl, ?_⟩
    cases hi : arrayIndex? name with
    | some i =>
      rw [(h.byName hi).2.1]
      exact h.write rfl (by simp [ArgumentsOp.written?, hi])
    | none =>
      exact ((h.byPlainName hi).2.1 v).quiet rfl (by simp [ArgumentsOp.written?, hi])
  | has name => exact ⟨_, s, rfl, h.quiet rfl rfl⟩
  | delete name =>
    refine ⟨.flag (s.delete arguments name).1, (s.delete arguments name).2, rfl, ?_⟩
    cases hi : arrayIndex? name with
    | some i =>
      rw [(h.byName hi).2.2.2]
      exact h.delete (by simp [ArgumentsOp.deleted?, hi]) rfl
    | none =>
      exact (h.byPlainName hi).2.2.quiet (by simp [ArgumentsOp.deleted?, hi]) rfl
  | getIndex i =>
    obtain ⟨v, hv⟩ := h.readIndex_ok i
    refine ⟨.value v, s, ?_, h.quiet rfl rfl⟩
    simp only [ArgumentsOp.run, StateT.run_bind, StateT.run_get, pure_bind, hv]
    rfl
  | putIndex i v => exact ⟨.done, _, rfl, h.write rfl rfl⟩
  | hasIndex i => exact ⟨_, s, rfl, h.quiet rfl rfl⟩
  | deleteIndex i => exact ⟨_, _, rfl, h.delete rfl rfl⟩

/-- Operations in sequence. -/
theorem runAll (h : ArgumentsState unit record arguments data history s) (ops : List ArgumentsOp) :
    ∃ answers s', (ArgumentsOp.runAll record arguments ops).run s = .ok (answers, s') ∧
      ArgumentsState unit record arguments data (history ++ ops) s' := by
  induction ops generalizing history s with
  | nil => exact ⟨[], s, rfl, by rwa [List.append_nil]⟩
  | cons op rest ih =>
    obtain ⟨answer, s1, hrun, h1⟩ := h.step op
    obtain ⟨answers, s2, hruns, h2⟩ := ih h1
    refine ⟨answer :: answers, s2, ?_, by rwa [List.append_assoc] at h2⟩
    simp only [ArgumentsOp.runAll, StateT.run_bind, hrun]
    simp [Except.bind, Bind.bind, hruns]
    rfl

end ArgumentsState

/-! ## The aliasing model -/

/-- How a record and its `arguments` object are connected after a history of operations. -/
structure Aliasing (unit : CompiledUnit) (args : List Value) (record arguments : ObjId)
    (history : List ArgumentsOp) (s : Store) : Prop where
  /-- No read ends in a fault. -/
  readable : (∀ i, ∃ v, s.readIndex arguments i = .ok v) ∧
    ∀ name, ∃ v, s.read arguments name = .ok v
  /-- An element of a last formal that has not been deleted is the formal's binding: a write to one
  of them is seen by the other. -/
  shared : ∀ i name, i < args.length → unit.IsLastFormal i name → deletedIn history i = false →
    ∃ v, (s.properties record).get? name = some v ∧ s.readIndex arguments i = .ok (some v) ∧
      ∀ w, ((s.putIndex arguments i w).properties record).get? name = some w ∧
        (s.putIndex arguments i w).readIndex arguments i = .ok (some w) ∧
        (s.put record name w).readIndex arguments i = .ok (some w)
  /-- Another element that has not been deleted keeps what was written to it last. -/
  own : ∀ i v, args[i]? = some v → (∀ name, ¬ unit.IsLastFormal i name) →
    deletedIn history i = false →
    s.readIndex arguments i = .ok (some (lastWritten history i v))
  /-- An element that has been deleted, or was never there, is an ordinary property. -/
  ordinary : ∀ i, deletedIn history i = true ∨ args.length ≤ i →
    s.readIndex arguments i = .ok ((s.properties arguments).get? (indexName i)) ∧
    s.hasIndex arguments i = (s.properties arguments).has (indexName i) ∧
    (∀ w, (s.putIndex arguments i w).readIndex arguments i = .ok (some w)) ∧
    (s.deleteIndex arguments i).2.properties record = s.properties record
  /-- An element that is no alias does not touch the record, and the record does not touch it. -/
  apart : ∀ i, ¬ (i < args.length ∧ (∃ name, unit.IsLastFormal i name) ∧
      deletedIn history i = false) →
    (∀ w, (s.putIndex arguments i w).properties record = s.properties record) ∧
    ∀ name w, (s.put record name w).readIndex arguments i = s.readIndex arguments i
  /-- An element that has not been deleted is there. -/
  present : ∀ i, i < args.length → deletedIn history i = false → s.hasIndex arguments i = true
  /-- A write to one index leaves the others alone. -/
  others : ∀ i j w, i ≠ j →
    (s.putIndex arguments i w).readIndex arguments j = s.readIndex arguments j
  /-- Names that are indices mean these. -/
  byName : ∀ name i, arrayIndex? name = some i →
    s.read arguments name = s.readIndex arguments i ∧
    (∀ v, s.put arguments name v = s.putIndex arguments i v) ∧
    s.has arguments name = s.hasIndex arguments i ∧
    s.delete arguments name = s.deleteIndex arguments i
  /-- The arguments as they were passed. -/
  passed : (s.activation? record).map (·.args) = some args

namespace ArgumentsState

variable {history : List ArgumentsOp} (h : ArgumentsState unit record arguments data history s)

include h

/-- Reads of an element see its kind, the record and the ordinary properties only. -/
theorem readIndex_congr (ha : s.kind arguments = .arguments a)
    (hb : t.kind arguments = .arguments b) (hact : b.activation = a.activation)
    (hunit : b.unit = a.unit) (helem : b.element? i = a.element? i)
    (hown : (t.properties arguments).find? (indexName i) =
      (s.properties arguments).find? (indexName i))
    (hrec : ∀ name, unit.IsLastFormal i name → (a.element? i).isSome →
      (t.properties record).find? name = (s.properties record).find? name) :
    t.readIndex arguments i = s.readIndex arguments i := by
  obtain ⟨a', hkind, htr, hcases⟩ := h.element_cases i
  rw [ha] at hkind
  cases hkind
  have htr' : (b.activation = record) ∧ b.unit = unit :=
    ⟨hact.trans htr.activation_eq, hunit.trans htr.unit_eq⟩
  rcases hcases with ⟨name, p, hi, hname, hal, hp, -⟩ | ⟨v, hv, hal⟩ | hnone
  · rw [readIndex_alias ha htr hi hname hp]
    obtain ⟨v, hv⟩ := Option.isSome_iff_exists.mp hi
    have hget : (t.properties record).get? name = some p.value := by
      rw [PropertyMap.get?, hrec name hname hi, hp]
      rfl
    simp [readIndex, hb, helem, hv, htr'.1, htr'.2, hal, hname.formal_eq, hget]
  · rw [readIndex_own ha htr hv hal]
    simp [readIndex, hb, helem, hv, htr'.2, hal]
  · rw [readIndex_gone ha hnone]
    simp [readIndex, hb, helem, hnone, PropertyMap.get?, hown]

/-- The state after a write to the record reads the elements as before, apart from the alias of the
name. -/
theorem readIndex_putRecord (w : Value)
    (hne : ∀ a, s.kind arguments = .arguments a → (a.element? i).isSome →
      ¬ unit.IsLastFormal i name) :
    (s.putOrdinary record name w).readIndex arguments i = s.readIndex arguments i := by
  obtain ⟨a, hkind, -⟩ := h.tracks
  have hlt := h.isRecord.lt_size
  refine h.readIndex_congr hkind (t := s.putOrdinary record name w) (b := a) ?_ rfl rfl rfl ?_
    fun name' hname' hi => ?_
  · rw [putOrdinary, s.kind_setProperties _ _ _ hlt, hkind]
  · rw [putOrdinary, s.properties_setProperties _ _ _ hlt, if_neg h.ne]
  · rw [putOrdinary, h.isRecord.properties_setProperties, PropertyMap.find?_put_ne]
    rintro rfl
    exact hne a hkind hi hname'

private theorem alias_of_last (hi : i < data.args.length)
    (hname : unit.IsLastFormal i name) (hd : deletedIn history i = false) :
    ∃ v, (s.properties record).get? name = some v ∧ s.readIndex arguments i = .ok (some v) ∧
      ∀ w, ((s.putIndex arguments i w).properties record).get? name = some w ∧
        (s.putIndex arguments i w).readIndex arguments i = .ok (some w) ∧
        (s.put record name w).readIndex arguments i = .ok (some w) := by
  obtain ⟨a, hkind, ha⟩ := h.tracks
  have hlive : (a.element? i).isSome := ha.isSome_element?.mpr ⟨hd, hi⟩
  obtain ⟨p, hp, hw⟩ := h.bound name hname.mem
  refine ⟨p.value, by rw [PropertyMap.get?, hp]; rfl, readIndex_alias hkind ha hlive hname hp,
    fun w => ?_⟩
  have hfind : ((s.putOrdinary record name w).properties record).find? name =
      some { p with value := w } := by
    rw [putOrdinary, h.isRecord.properties_setProperties, PropertyMap.find?_put, if_pos rfl,
      hp, Option.getD_some]
    intro q hq
    rw [hp] at hq
    cases hq
    exact hw
  have hkind' : (s.putOrdinary record name w).kind arguments = .arguments a := by
    rw [putOrdinary, s.kind_setProperties _ _ _ h.isRecord.lt_size, hkind]
  have hread := readIndex_alias hkind' ha hlive hname hfind
  rw [putIndex_alias hkind ha hlive hname, h.isRecord.put_eq]
  exact ⟨by rw [PropertyMap.get?, hfind]; rfl, hread, hread⟩

private theorem ordinary_of_gone (hi : deletedIn history i = true ∨ data.args.length ≤ i) :
    s.readIndex arguments i = .ok ((s.properties arguments).get? (indexName i)) ∧
    s.hasIndex arguments i = (s.properties arguments).has (indexName i) ∧
    (∀ w, (s.putIndex arguments i w).readIndex arguments i = .ok (some w)) ∧
    (s.deleteIndex arguments i).2.properties record = s.properties record := by
  obtain ⟨a, hkind, ha⟩ := h.tracks
  have hnone : a.element? i = none := ha.element?_eq_none.mpr hi
  have hlt := h.lt_size
  refine ⟨readIndex_gone hkind hnone, by simp [hasIndex, hkind, hnone], fun w => ?_, ?_⟩
  · have hkind' : (s.putOrdinary arguments (indexName i) w).kind arguments = .arguments a := by
      rw [putOrdinary, s.kind_setProperties _ _ _ hlt, hkind]
    rw [putIndex_gone hkind hnone, readIndex_gone hkind' hnone, PropertyMap.get?,
      putOrdinary, s.properties_setProperties _ _ _ hlt, if_pos rfl,
      PropertyMap.find?_put _ _ _ (h.ordinary _), if_pos rfl]
    rfl
  · rw [deleteIndex_gone hkind hnone, deleteOrdinary, s.properties_setProperties _ _ _ hlt,
      if_neg (Ne.symm h.ne)]

private theorem apart_of_not_alias (hi : ¬ (i < data.args.length ∧
      (∃ name, unit.IsLastFormal i name) ∧ deletedIn history i = false)) :
    (∀ w, (s.putIndex arguments i w).properties record = s.properties record) ∧
    ∀ name w, (s.put record name w).readIndex arguments i = s.readIndex arguments i := by
  have hlt := h.lt_size
  have hnot : ∀ a, s.kind arguments = .arguments a → (a.element? i).isSome →
      ∀ name, ¬ unit.IsLastFormal i name := by
    intro a hkind hsome name hname
    obtain ⟨a', hkind', ha⟩ := h.tracks
    rw [hkind] at hkind'
    cases hkind'
    obtain ⟨hd, hlt⟩ := ha.isSome_element?.mp hsome
    exact hi ⟨hlt, ⟨name, hname⟩, hd⟩
  refine ⟨fun w => ?_, fun name w => ?_⟩
  · obtain ⟨a, hkind, ha, ⟨n, p, hsome, hn, -⟩ | ⟨v, hv, hal⟩ | hnone⟩ := h.element_cases i
    · exact absurd hn (hnot a hkind hsome n)
    · rw [putIndex_own hkind ha hv hal, s.properties_setKind _ _ _ hlt]
    · rw [putIndex_gone hkind hnone, putOrdinary, s.properties_setProperties _ _ _ hlt,
        if_neg (Ne.symm h.ne)]
  · rw [h.isRecord.put_eq]
    exact h.readIndex_putRecord w fun a hkind hsome => hnot a hkind hsome name

private theorem readIndex_putIndex_ne (w : Value) (hij : i ≠ j) :
    (s.putIndex arguments i w).readIndex arguments j = s.readIndex arguments j := by
  have hlt := h.lt_size
  obtain ⟨a, hkind, ha, ⟨n, p, hsome, hn, -⟩ | ⟨v, hv, hal⟩ | hnone⟩ := h.element_cases i
  · -- Two elements are never aliases of the same formal.
    rw [putIndex_alias hkind ha hsome hn]
    exact h.readIndex_putRecord w fun _ _ _ hj => hij (hn.index_eq hj)
  · rw [putIndex_own hkind ha hv hal]
    have hsize := ArgumentsData.lt_size_of_isSome (i := i) (a := a) (by simp [hv])
    refine h.readIndex_congr hkind (b := a.setElement i (some w)) ?_ rfl rfl ?_ ?_
      fun name _ _ => ?_
    · rw [s.kind_setKind _ _ _ hlt, if_pos rfl]
    · rw [ArgumentsData.element?_setElement hsize, if_neg (Ne.symm hij)]
    · rw [s.properties_setKind _ _ _ hlt]
    · rw [s.properties_setKind _ _ _ hlt]
  · rw [putIndex_gone hkind hnone, putOrdinary]
    refine h.readIndex_congr hkind (b := a) ?_ rfl rfl rfl ?_ fun name _ _ => ?_
    · rw [s.kind_setProperties _ _ _ hlt, hkind]
    · rw [s.properties_setProperties _ _ _ hlt, if_pos rfl, PropertyMap.find?_put_ne]
      exact fun heq => hij (indexName_inj.mp heq).symm
    · rw [s.properties_setProperties _ _ _ hlt, if_neg (Ne.symm h.ne)]

private theorem aliasing : Aliasing unit data.args record arguments history s where
  readable := ⟨h.readIndex_ok, h.read_ok⟩
  shared _ _ hi hname hd := h.alias_of_last hi hname hd
  own i v hv hnot hd := by
    obtain ⟨a, hkind, ha⟩ := h.tracks
    have hal : unit.isAliased i = false := Bool.eq_false_iff.mpr fun hal =>
      ((unit.isAliased_iff i).mp hal).elim hnot
    refine readIndex_own hkind ha ?_ hal
    simp [ha.element_eq, ArgumentsOp.left, hd, hv, hal]
  ordinary _ hi := h.ordinary_of_gone hi
  apart _ hi := h.apart_of_not_alias hi
  present i hi hd := by
    obtain ⟨a, hkind, ha⟩ := h.tracks
    simp [hasIndex, hkind, ha.isSome_element?.mpr ⟨hd, hi⟩]
  others _ _ w hij := h.readIndex_putIndex_ne w hij
  byName _ _ hi := h.byName hi
  passed := by simp [activation?, h.isRecord.kind_eq]

end ArgumentsState

/-! ## New records -/

variable (r : Realm) (function : ObjId) (unit : CompiledUnit) (inspection : CallerInspection)
  (scope : ObjId) (receiver : Option ObjId) (args : List Value) (s : Store)

/-- A new record and its `arguments` object. -/
theorem argumentsState_new (hformals : "arguments" ∉ unit.formals)
    (ht : r.newActivation function unit inspection scope receiver args s = (⟨s.size⟩, t)) :
    (t.properties ⟨s.size⟩).get? "arguments" = some (.object ⟨s.size + 1⟩) ∧
    ArgumentsState unit ⟨s.size⟩ ⟨s.size + 1⟩ { function, receiver, args } [] t := by
  obtain ⟨t', m, hmade, hlt, hrecord, hfind, harguments⟩ := Realm.newActivation_objects r function
    unit inspection scope receiver args s
  obtain rfl : t' = t := by
    rw [ht] at hmade
    exact (Prod.mk.inj hmade).2.symm
  obtain ⟨hsize, hobject⟩ := harguments hformals
  have hprops : t'.properties ⟨s.size⟩ = m := by rw [properties, hrecord]
  constructor
  · rw [hprops, PropertyMap.get?, hfind, Realm.initialBinding,
      VariableTable.lastIndex?_eq_none_iff.mpr hformals]
    rfl
  · refine ⟨⟨hlt, by rw [kind, hrecord], by rw [proto?, hrecord]⟩, by simp,
      by simp [hsize], fun n hn => ?_, fun n p hp => ?_,
      Realm.initialArguments ⟨s.size⟩ function unit inspection args, by rw [kind, hobject], ?_⟩
    · rw [hprops, hfind, Realm.initialBinding]
      cases hlast : VariableTable.lastIndex? n unit.formals with
      | none => exact absurd hn (VariableTable.lastIndex?_eq_none_iff.mp hlast)
      | some i => exact ⟨_, rfl, rfl⟩
    · rw [properties, hobject] at hp
      cases hp
    · have helem : ∀ i, (Realm.initialArguments ⟨s.size⟩ function unit inspection args).element? i =
          args[i]? := by
        intro i
        simp only [ArgumentsData.element?, Realm.initialArguments, List.getElem?_toArray,
          List.getElem?_map]
        cases args[i]? <;> rfl
      refine ⟨rfl, rfl, fun i => ?_⟩
      simp [helem, ArgumentsOp.left, deletedIn, lastWritten]

/-- The elements of `arguments` are aliases of formals as `Aliasing` says, after every history of
writes to the bindings of the record and of accesses to the object. -/
theorem arguments_alias_formals (hformals : "arguments" ∉ unit.formals)
    (history : List ArgumentsOp) :
    let made := r.newActivation function unit inspection scope receiver args s
    ∃ arguments, (made.2.properties made.1).get? "arguments" = some (.object arguments) ∧
      ∃ answers t, (ArgumentsOp.runAll made.1 arguments history).run made.2 = .ok (answers, t) ∧
        Aliasing unit args made.1 arguments history t := by
  intro made
  have hmade : made = (⟨s.size⟩, made.2) := by
    obtain ⟨t, m, ht, -⟩ := Realm.newActivation_objects r function unit inspection scope receiver
      args s
    exact Prod.ext (congrArg Prod.fst ht : made.1 = _) rfl
  obtain ⟨hbound, hstate⟩ :=
    argumentsState_new r function unit inspection scope receiver args s hformals hmade
  obtain ⟨answers, t, hrun, ht⟩ := hstate.runAll history
  rw [show made.1 = ⟨s.size⟩ from congrArg Prod.fst hmade]
  exact ⟨⟨s.size + 1⟩, hbound, answers, t, hrun, ht.aliasing⟩

/-- A function with the formals `a`, `b` and again `a`: the first element is no alias and keeps what
is written to it while the formal changes. -/
theorem arguments_alias_formals_repeated :
    let unit : CompiledUnit :=
      { (default : CompiledUnit) with argNames := ["a", "b", "a"], argCount := 3 }
    let made := (default : Realm).newActivation ⟨0⟩ unit .allow ⟨1⟩ none
      [.boolean true, .null, .boolean false] {}
    let history : List ArgumentsOp :=
      [.deleteIndex 1, .putIndex 0 .null, .bind "a" .undefined, .put "1" .null]
    "arguments" ∉ unit.formals ∧
    ∃ arguments, (made.2.properties made.1).get? "arguments" = some (.object arguments) ∧
      ∃ answers t, (ArgumentsOp.runAll made.1 arguments history).run made.2 = .ok (answers, t) ∧
        t.readIndex arguments 0 = .ok (some .null) ∧
        ∃ v, (t.properties made.1).get? "a" = some v ∧ t.readIndex arguments 2 = .ok (some v) := by
  intro unit made history
  have hformals : "arguments" ∉ unit.formals := by simp [CompiledUnit.formals, unit]
  obtain ⟨arguments, hbound, answers, t, hrun, haliasing⟩ :=
    arguments_alias_formals default ⟨0⟩ unit
    .allow ⟨1⟩ none [.boolean true, .null, .boolean false] {} hformals history
  refine ⟨hformals, arguments, hbound, answers, t, hrun, ?_, ?_⟩
  · refine haliasing.own 0 (.boolean true) rfl (fun name hname => ?_) rfl
    obtain rfl : "a" = name := Option.some.inj hname.1
    exact hname.2 2 (by decide) rfl
  · have hlast : unit.IsLastFormal 2 "a" := ⟨rfl, fun j hj hmem => by
      have := (List.getElem?_eq_some_iff.mp hmem).1
      simp [CompiledUnit.formals, unit] at this
      omega⟩
    obtain ⟨v, hv, hread, -⟩ := haliasing.shared 2 "a" (by decide) hlast rfl
    exact ⟨v, hv, hread⟩

end ScriptEngine
