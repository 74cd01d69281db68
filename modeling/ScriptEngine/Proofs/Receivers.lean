import ScriptEngine.Proofs.WithScopes

/-!
# Receivers

A function that uses its receiver gets an object that scripts may see: none becomes the outermost
scope, the scope of a with statement the object that it exposes, and the record of a call the
outermost scope around it. One pass is enough: what is exposed is no such scope any more, and the
outermost scope is neither, because both have a scope around them.
-/

namespace ScriptEngine

namespace Store

variable {s : Store} {id : ObjId}

/-- No cycle of prototypes and none of scopes: their chains come to an end. The scope of a with
statement exposes an object, and there is a scope around it and around the record of a call. -/
structure Grounded (s : Store) : Prop where
  prototypes : ∀ id, id.index < s.size → ∃ l, s.Chained (·.proto) (some id) l
  scopes : ∀ id, id.index < s.size → ∃ l, s.Chained (·.parent) (some id) l
  target : ∀ id, s.isWithScope id = true → (s.proto? id).isSome
  around : ∀ id, s.isWithScope id = true ∨ s.isActivation id = true → (s.parent? id).isSome

/-- The last object of a chain is in the store. -/
theorem Chained.getLast_lt {link : Object → Option ObjId} {l : List ObjId}
    (h : s.Chained link (some id) l) (j : ObjId) : (l.getLast?.getD j).index < s.size := by
  cases l with
  | nil => cases h
  | cons k rest =>
    rw [List.getLast?_eq_getLast_of_ne_nil (by simp)]
    exact h.bound _ (List.getLast_mem _)

namespace Grounded

variable (h : s.Grounded) (hid : id.index < s.size)

include h hid

/-- What is outermost is neither the scope of a with statement nor a record. -/
theorem topLevel : (s.topLevel id).index < s.size ∧ s.isWithScope (s.topLevel id) = false ∧
    s.isActivation (s.topLevel id) = false := by
  obtain ⟨l, hl⟩ := h.scopes id hid
  have hnone : s.parent? (s.topLevel id) = none := by
    rw [Store.topLevel, Store.scopes, hl.walk_eq]
    exact hl.link_getLast id
  have hinner : ¬ (s.isWithScope (s.topLevel id) = true ∨
      s.isActivation (s.topLevel id) = true) := by
    intro hc
    have hsome := h.around _ hc
    rw [hnone] at hsome
    cases hsome
  refine ⟨?_, by simpa using fun hc => hinner (.inl hc), by simpa using fun hc => hinner (.inr hc)⟩
  rw [Store.topLevel, Store.scopes, hl.walk_eq]
  exact hl.getLast_lt id

/-- What is exposed is not the scope of a with statement. -/
theorem exposed : (s.exposed id).index < s.size ∧ s.isWithScope (s.exposed id) = false := by
  obtain ⟨l, hl⟩ := h.prototypes id hid
  obtain ⟨l', hl'⟩ := hl.exposed
  rw [Store.exposed, hl'.walk_eq]
  refine ⟨hl'.getLast_lt id, Bool.eq_false_iff.mpr fun hwith => ?_⟩
  have hsome := h.target _ hwith
  have hnone := hl'.link_getLast id
  rw [isWithScope, kind] at hwith
  rw [exposedLink] at hnone
  split at hnone
  · rw [proto?, hnone] at hsome
    cases hsome
  · simp_all

end Grounded

end Store

/-- In an object graph without cycles, in which with scopes expose objects and with scopes and
records stand inside other scopes: the receiver of a function is neither of the two, however long
the chain of exposed objects is, and it is its own receiver. -/
theorem receiver_is_ordinary {s : Store} (hs : s.Grounded) {this : Option ObjId} {scope : ObjId}
    (hthis : ∀ id ∈ this, id.index < s.size) (hscope : scope.index < s.size) :
    s.isWithScope (s.receiver this scope) = false ∧
      s.isActivation (s.receiver this scope) = false ∧
      ∀ other, s.receiver (some (s.receiver this scope)) other = s.receiver this scope := by
  have hordinary : s.isWithScope (s.receiver this scope) = false ∧
      s.isActivation (s.receiver this scope) = false := by
    have hstart : (this.getD (s.topLevel scope)).index < s.size := by
      cases this with
      | none => exact (hs.topLevel hscope).1
      | some id => exact hthis id rfl
    obtain ⟨hlt, hwith⟩ := hs.exposed hstart
    rw [Store.receiver]
    split
    · exact (hs.topLevel hlt).2
    · next hrecord => exact ⟨hwith, by simpa using hrecord⟩
  refine ⟨hordinary.1, hordinary.2, fun other => ?_⟩
  rw [Store.receiver, Option.getD_some, Store.exposed_eq_self hordinary.1, hordinary.2]
  rfl

/-- The scope of a with statement exposes the record of a call: the receiver is the outermost
scope. -/
theorem receiver_is_ordinary_of_record :
    let record : ActivationData := { function := ⟨9⟩, receiver := none, args := [] }
    let s : Store :=
      { objects := #[{ kind := .plain "global" none },
          { kind := .activation record, parent := some ⟨0⟩ },
          { kind := .withScope, proto := some ⟨1⟩, parent := some ⟨1⟩ }] }
    s.Grounded ∧ s.receiver (some ⟨2⟩) ⟨1⟩ = ⟨0⟩ ∧
      s.isWithScope (s.receiver (some ⟨2⟩) ⟨1⟩) = false := by
  intro record s
  have hcases : ∀ id : ObjId, id.index < s.size → id = ⟨0⟩ ∨ id = ⟨1⟩ ∨ id = ⟨2⟩ := by
    rintro ⟨i⟩ hi
    have hi : i < 3 := hi
    simp only [ObjId.mk.injEq]
    omega
  have hinside : ∀ id, s.isWithScope id = true ∨ s.isActivation id = true →
      id = ⟨1⟩ ∨ id = ⟨2⟩ := by
    intro id hid
    have hlt : id.index < s.size := Store.lt_size_of_kind fun hkind => by
      simp [Store.isWithScope, Store.isActivation, Store.activation?, hkind] at hid
    rcases hcases id hlt with rfl | hid'
    · rcases hid with hid | hid <;> cases hid
    · exact hid'
  have hs : s.Grounded := by
    refine ⟨fun id hid => ?_, fun id hid => ?_, fun id hid => ?_, fun id hid => ?_⟩
    · rcases hcases id hid with rfl | rfl | rfl
      · exact ⟨[⟨0⟩], rfl, by decide, rfl⟩
      · exact ⟨[⟨1⟩], rfl, by decide, rfl⟩
      · exact ⟨[⟨2⟩, ⟨1⟩], rfl, by decide, rfl, by decide, rfl⟩
    · rcases hcases id hid with rfl | rfl | rfl
      · exact ⟨[⟨0⟩], rfl, by decide, rfl⟩
      · exact ⟨[⟨1⟩, ⟨0⟩], rfl, by decide, rfl, by decide, rfl⟩
      · exact ⟨[⟨2⟩, ⟨1⟩, ⟨0⟩], rfl, by decide, rfl, by decide, rfl, by decide, rfl⟩
    · rcases hinside id (.inl hid) with rfl | rfl
      · cases hid
      · rfl
    · rcases hinside id hid with rfl | rfl <;> rfl
  have hthis : ∀ id ∈ some (⟨2⟩ : ObjId), id.index < s.size := by
    rintro _ ⟨rfl⟩
    decide
  exact ⟨hs, rfl, (receiver_is_ordinary hs hthis (by decide)).1⟩

end ScriptEngine
