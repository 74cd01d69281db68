import ScriptEngine.Proofs.ScopeLookup
import ScriptEngine.Proofs.StoreWalks

/-!
# Scopes of with statements

The scope of a with statement shows an object in front of another scope. As long as nothing is
defined on the scope itself, every name and index is read through it as on the object, and a name
that is written through it is written to the object. Other changes stay on the scope: an index that
is written becomes a property of the scope, and nothing is deleted.
-/

namespace ScriptEngine

namespace Store

variable {s t : Store} {id scope target : ObjId} {n : String}

/-- The scope of a with statement on which nothing is defined, and the object that it exposes. The
prototypes of the object come to an end. -/
structure Exposes (s : Store) (scope target : ObjId) : Prop where
  kind_eq : s.kind scope = .withScope
  proto_eq : s.proto? scope = some target
  empty : s.properties scope = {}
  ends : ∃ l, s.Chained (·.proto) (some target) l

/-! ## Writes -/

private theorem setProperties_self (s : Store) (id : ObjId) :
    s.setProperties id (s.properties id) = s := by
  have hsame : s.objects.modify id.index ({ · with properties := s.properties id }) =
      s.objects := by
    refine Array.ext_getElem? fun i => ?_
    rw [Array.getElem?_modify]
    split
    · next hi =>
      subst hi
      cases ho : s.objects[id.index]? with
      | none => rfl
      | some o =>
        have hobject : s.object id = o := by
          rw [object, Array.getD_eq_getD_getElem?, ho]
          rfl
        rw [properties, hobject]
        rfl
    · rfl
  rw [setProperties, modify, hsame]

/-- Exposed objects are prototypes, so they come to an end as these do. -/
theorem Chained.exposed {start : Option ObjId} {l : List ObjId} (h : s.Chained (·.proto) start l) :
    ∃ l', s.Chained exposedLink start l' := by
  induction l generalizing start with
  | nil => exact ⟨[], h⟩
  | cons id rest ih =>
    obtain ⟨rfl, hlt, hrest⟩ := h
    obtain ⟨l', hl'⟩ := ih hrest
    cases hlink : exposedLink (s.object id) with
    | none => exact ⟨[id], rfl, hlt, hlink⟩
    | some j =>
      -- Only the scope of a with statement has this link, and it is its prototype.
      have hproto : exposedLink (s.object id) = (s.object id).proto := by
        rw [exposedLink] at hlink ⊢
        split at hlink
        · rfl
        · cases hlink
      exact ⟨id :: l', rfl, hlt, by rw [hproto]; exact hl'⟩

/-- The last object in a chain has no link. -/
theorem Chained.link_getLast {link : Object → Option ObjId} {l : List ObjId}
    (h : s.Chained link (some id) l) (j : ObjId) : link (s.object (l.getLast?.getD j)) = none := by
  induction l generalizing id with
  | nil => cases h
  | cons k rest ih =>
    obtain ⟨-, -, hrest⟩ := h
    cases rest with
    | nil => exact hrest
    | cons m more =>
      have hm : link (s.object k) = some m := hrest.1
      rw [hm] at hrest
      simpa using ih hrest

namespace Exposes

variable (h : s.Exposes scope target)

include h

private theorem lt_size : scope.index < s.size := lt_size_of_kind (by simp [h.kind_eq])

private theorem chained {l : List ObjId} (hl : s.Chained (·.proto) (some target) l) :
    s.Chained (·.proto) (some scope) (scope :: l) := by
  refine ⟨rfl, h.lt_size, ?_⟩
  show s.Chained (·.proto) (s.proto? scope) l
  rw [h.proto_eq]
  exact hl

private theorem target_ne : target ≠ scope := by
  rintro rfl
  obtain ⟨l, hl⟩ := h.ends
  have hlen := congrArg List.length ((h.chained hl).unique hl)
  simp at hlen

private theorem exposedLink_eq : exposedLink (s.object scope) = some target := by
  rw [exposedLink, show (s.object scope).kind = _ from h.kind_eq]
  exact h.proto_eq

/-- The prototypes of the scope are the scope and those of the object. -/
theorem prototypes_eq : s.prototypes scope = scope :: s.prototypes target := by
  obtain ⟨l, hl⟩ := h.ends
  rw [prototypes, prototypes, hl.walk_eq, (h.chained hl).walk_eq]

/-- A with scope exposes what its target does. -/
theorem exposed_eq : s.exposed scope = s.exposed target := by
  obtain ⟨l, hl⟩ := h.ends
  obtain ⟨l', hl'⟩ := hl.exposed
  have hscope : s.Chained exposedLink (some scope) (scope :: l') :=
    ⟨rfl, h.lt_size, by rw [h.exposedLink_eq]; exact hl'⟩
  rw [exposed, exposed, hl'.walk_eq, hscope.walk_eq]
  cases l' with
  | nil => cases hl'
  | cons j rest => rw [List.getLast?_cons_cons, List.getLast?_eq_getLast_of_ne_nil (by simp)]; rfl

/-! ## Reads -/

/-- A with scope has no properties of its own. -/
theorem has_eq (n : String) : s.has scope n = false := by
  rw [has, h.kind_eq, h.empty]
  rfl

private theorem getOwn_run (n : String) : (StoreM.getOwn scope n).run s = .ok (none, s) := by
  rw [Store.getOwn_run fun _ => by simp [function?, h.kind_eq], read, h.kind_eq, h.empty]
  rfl

private theorem hasProperty_eq (n : String) : s.hasProperty scope n = s.hasProperty target n := by
  rw [hasProperty, hasProperty, h.prototypes_eq, List.any_cons, h.has_eq, Bool.false_or]

private theorem getProperty_run (n : String) :
    (StoreM.getProperty scope n).run s = (StoreM.getProperty target n).run s := by
  simp only [StoreM.getProperty, StateT.run_bind, StateT.run_get, pure_bind, h.prototypes_eq,
    List.findSomeM?, h.getOwn_run]
  rfl

private theorem indexProperty_eq (i : Nat) :
    s.indexProperty scope i = s.indexProperty target i := by
  have hread : s.readIndex scope i = .ok none := by
    rw [readIndex, h.kind_eq, h.empty]
    rfl
  rw [indexProperty, indexProperty, h.prototypes_eq, List.findSomeM?, hread]
  rfl

/-! ## Changes -/

private theorem put_eq (n : String) (v : Value) : s.put scope n v = s.put target n v := by
  rw [Store.put, Store.put, h.exposed_eq]

/-- A name that is written on the object, or through the scope, is not written on the scope. -/
theorem put (hs : s.Aliased) (n : String) (v : Value) :
    (s.put target n v).Exposes scope target := by
  obtain ⟨l, hl⟩ := h.ends
  obtain ⟨l', hl'⟩ := hl.exposed
  have hlink := h.exposedLink_eq
  rw [Store.put]
  rcases (s.edit_putOwn (s.exposed target) n v).eq_modify with hsame | ⟨j, f, hmodify, hproto, hj⟩
  · rw [hsame]
    exact h
  · have hne : scope ≠ j := by
      rintro rfl
      rcases hj with hj | ⟨a, ha, hj⟩
      · rw [hj, exposed, hl'.walk_eq, hl'.link_getLast] at hlink
        cases hlink
      · obtain ⟨⟨data, hdata⟩, -⟩ := hs (s.exposed target) a.activation a.unit (by rw [ha]; rfl)
        rw [← hj, h.kind_eq] at hdata
        cases hdata
    have hscope : (s.modify j f).object scope = s.object scope := s.object_modify_ne f hne
    rw [hmodify]
    refine ⟨by rw [kind, hscope]; exact h.kind_eq, by rw [proto?, hscope]; exact h.proto_eq,
      by rw [properties, hscope]; exact h.empty, l, hl.congr (by simp) fun id _ => ?_⟩
    exact part_modify (·.proto) (hproto _) id

/-- An index that is written through the scope is a property of the scope. -/
theorem putIndex_eq (i : Nat) (v : Value) :
    s.putIndex scope i v =
      s.setProperties scope (({} : PropertyMap).define (indexName i) { value := v }) := by
  rw [putIndex, h.kind_eq]
  dsimp only
  rw [putOrdinary, h.empty]
  rfl

private theorem indexProperty_putIndex (i : Nat) (v : Value) :
    (s.setProperties scope (({} : PropertyMap).define (indexName i) { value := v })).indexProperty
      scope i = .ok (some v) := by
  let m := ({} : PropertyMap).define (indexName i) { value := v }
  have hlt : scope.index < (s.setProperties scope m).size := by simpa using h.lt_size
  obtain ⟨rest, hrest⟩ := walk_head (·.proto) hlt
  have hread : (s.setProperties scope m).readIndex scope i = .ok (some v) := by
    rw [readIndex, s.kind_setProperties _ _ _ h.lt_size, h.kind_eq]
    dsimp only
    rw [s.properties_setProperties _ _ _ h.lt_size, if_pos rfl, PropertyMap.get?,
      PropertyMap.find?_define, if_pos rfl]
    rfl
  rw [indexProperty, prototypes, hrest, List.findSomeM?, hread]
  rfl

private theorem delete_eq (n : String) : s.delete scope n = (true, s) := by
  rw [delete, h.kind_eq]
  dsimp only
  rw [deleteOrdinary, h.empty]
  show (true, s.setProperties scope {}) = _
  rw [← h.empty, setProperties_self]

private theorem deleteIndex_eq (i : Nat) : s.deleteIndex scope i = (true, s) := by
  rw [← h.delete_eq (indexName i), deleteIndex, delete, h.kind_eq]

end Exposes

end Store

/-- A scope of a with statement on which nothing is defined reads every name and index as the object
does that it exposes, after any sequence of writes by name through it or on the object. A write by
index stays on the scope, and deletions do nothing. -/
theorem with_scope_forwards_puts_only {s : Store} {scope target : ObjId} (hs : s.Reached)
    (h : s.Exposes scope target) :
    (∀ writes : List (String × Value),
      let t := writes.foldl (fun s w => s.put scope w.1 w.2) s
      t = writes.foldl (fun s w => s.put target w.1 w.2) s ∧
      (∀ n, t.hasProperty scope n = t.hasProperty target n ∧
        (StoreM.getProperty scope n).run t = (StoreM.getProperty target n).run t) ∧
      ∀ i, t.indexProperty scope i = t.indexProperty target i) ∧
    (∀ i v, (s.putIndex scope i v).object target = s.object target ∧
      (s.putIndex scope i v).indexProperty scope i = .ok (some v)) ∧
    (∀ n, s.delete scope n = (true, s)) ∧ ∀ i, s.deleteIndex scope i = (true, s) := by
  refine ⟨fun writes => ?_, fun i v => ?_, h.delete_eq, h.deleteIndex_eq⟩
  · induction writes generalizing s with
    | nil =>
      exact ⟨rfl, fun n => ⟨h.hasProperty_eq n, h.getProperty_run n⟩, h.indexProperty_eq⟩
    | cons w rest ih =>
      rw [List.foldl_cons, List.foldl_cons, h.put_eq]
      exact ih (hs.put target w.1 w.2) (h.put hs.aliased w.1 w.2)
  · have hlt := h.lt_size
    rw [h.putIndex_eq]
    refine ⟨by rw [s.object_setProperties _ _ _ hlt, if_neg h.target_ne], ?_⟩
    exact h.indexProperty_putIndex i v

/-- A with statement over a function: its scope passes a written `prototype` on. -/
theorem with_scope_forwards_puts_only_of_function :
    let function : Object :=
    { kind := .function { name := "f", arity := 0, callable := .native .inert } }
    let s := ((Store.push {} function).2.push { kind := .withScope, proto := some ⟨0⟩ }).2
    s.Reached ∧ s.Exposes ⟨1⟩ ⟨0⟩ ∧
      (StoreM.getProperty ⟨1⟩ "prototype").run (s.put ⟨1⟩ "prototype" .null) =
        .ok (some .null, s.put ⟨0⟩ "prototype" .null) := by
  intro function s
  have hreached : s.Reached := .object (.object .empty rfl) rfl
  have hexposes : s.Exposes ⟨1⟩ ⟨0⟩ := ⟨rfl, rfl, rfl, [⟨0⟩], rfl, by decide, rfl⟩
  obtain ⟨hstore, hreads, -⟩ :=
    (with_scope_forwards_puts_only hreached hexposes).1 [("prototype", .null)]
  refine ⟨hreached, hexposes, ?_⟩
  exact (hreads "prototype").2.trans (by rw [hstore]; rfl)

/-- Deleting a name and writing an index through the scope of a with statement is not the same as
doing it on the object. -/
theorem with_scope_keeps_changes :
    let target : Object :=
      { kind := .plain "Object" none
        properties := ({} : PropertyMap).define "p" { value := .null } }
    let s := ((Store.push {} target).2.push { kind := .withScope, proto := some ⟨0⟩ }).2
    s.Exposes ⟨1⟩ ⟨0⟩ ∧ (s.delete ⟨0⟩ "p").2.hasProperty ⟨0⟩ "p" = false ∧
      (s.delete ⟨1⟩ "p").2.hasProperty ⟨0⟩ "p" = true ∧
      (s.putIndex ⟨0⟩ 0 .null).indexProperty ⟨0⟩ 0 = .ok (some .null) ∧
      (s.putIndex ⟨1⟩ 0 .null).indexProperty ⟨0⟩ 0 = .ok none := by
  intro target s
  exact ⟨⟨rfl, rfl, rfl, [⟨0⟩], rfl, by decide, rfl⟩, by decide, by decide, rfl, rfl⟩

end ScriptEngine
