import ScriptEngine.Proofs.WithScopes

/-!
# Assigned names

An assignment writes a property of one object: of the scope that binds the name, of the object that
it exposes, or of the outermost scope. The new value is found from the same scope, since it comes
before whatever was found there. Other names are read as before, but for those of an `arguments`
object that show the property: an element that is an alias of the formal, and `caller` if the
`arguments` binding of the calling record is assigned.
-/

namespace ScriptEngine

open PropertyMap List

variable {j o : ObjId} {l : List ObjId}

namespace Store

variable {s t : Store} {w : ObjId} {changed : String → Prop} {n : String}

/-! ## Stores that differ in some names of one object -/

/-- A change of properties of one object with some names; new objects have no properties. -/
structure Patches (w : ObjId) (changed : String → Prop) (s t : Store) : Prop where
  size_le : s.size ≤ t.size
  kind_eq : ∀ j, j.index < s.size → t.kind j = s.kind j
  proto_eq : ∀ j, j.index < s.size → t.proto? j = s.proto? j
  parent_eq : ∀ j, j.index < s.size → t.parent? j = s.parent? j
  find_eq : ∀ j n, (j = w → ¬ changed n) → (t.properties j).find? n = (s.properties j).find? n

/-- Such a change that leaves the calls under way alone. -/
structure SameBut (w : ObjId) (changed : String → Prop) (s t : Store) : Prop
    extends Patches w changed s t where
  calls_eq : ∀ f, t.activationOf? f = s.activationOf? f

/-- The object that holds a name, from a scope: the first that has it among the prototypes of the
scope that binds it. -/
def holder? (s : Store) (scope : ObjId) (name : String) : Option ObjId :=
  (s.bind? scope name).bind fun o => (s.prototypes o).find? (s.has · name)

/-- A name of an `arguments` object shows a property of a record: an element shows the formal that
it is an alias of, and `caller` shows the `arguments` binding of the calling record. -/
inductive Shows (s : Store) (a : ArgumentsData) : String → ObjId → String → Prop
  | element {i} (helement : (a.element? i).isSome) (halias : a.unit.isAliased i) :
      Shows s a (indexName i) a.activation (a.unit.formal i)
  | caller {record} (hlazy : a.caller = .lazy)
      (hcaller : (s.activation? a.activation).bind (·.caller) = some record) :
      Shows s a "caller" record "arguments"

namespace SameBut

variable (h : SameBut w changed s t)

include h

private theorem get?_eq (hn : j = w → ¬ changed n) :
    (t.properties j).get? n = (s.properties j).get? n := by
  rw [get?, get?, h.find_eq j n hn]

private theorem function?_eq (hj : j.index < s.size) : t.function? j = s.function? j := by
  rw [function?, function?, h.kind_eq j hj]

private theorem activation?_eq (hj : j.index < s.size) : t.activation? j = s.activation? j := by
  rw [activation?, activation?, h.kind_eq j hj]

private theorem isSome_reflectedArguments? (f : FunctionData) :
    (t.reflectedArguments? j f).isSome = (s.reflectedArguments? j f).isSome := by
  rw [reflectedArguments?, reflectedArguments?, h.calls_eq]
  cases f.callable with
  | interpreted unit closure inspection => cases inspection <;> simp
  | _ => rfl

/-- An object still has a name that has not changed. -/
theorem has_eq (hj : j.index < s.size) (hn : j = w → ¬ changed n) : t.has j n = s.has j n := by
  have hordinary : (t.properties j).has n = (s.properties j).has n := by
    rw [PropertyMap.has, PropertyMap.has, h.find_eq j n hn]
  have hindex : ∀ i, arrayIndex? n = some i → t.hasIndex j i = s.hasIndex j i := by
    intro i hi
    obtain ⟨rfl, -⟩ := arrayIndex?_eq_some_iff.mp hi
    rw [hasIndex, hasIndex, h.kind_eq j hj, hordinary]
  rw [has, has, h.kind_eq j hj, hordinary]
  cases s.kind j with
  | function f => simp only [h.isSome_reflectedArguments?]
  | array elements =>
    cases hi : arrayIndex? n with
    | none => rfl
    | some i => simp only [hindex i hi]
  | arguments a =>
    cases hi : arrayIndex? n with
    | none => rfl
    | some i => simp only [hindex i hi]
  | _ => rfl

omit h in
private theorem activation?_of_activationOf? {f a : ObjId} (ha : s.activationOf? f = some a) :
    ∃ data, s.activation? a = some data := by
  have hfound := find?_some ha
  cases hact : s.activation? a with
  | none => simp [hact] at hfound
  | some data => exact ⟨data, rfl⟩

private theorem functionLength_eq (f : FunctionData) :
    t.functionLength j f = s.functionLength j f := by
  rw [functionLength, functionLength, h.calls_eq]
  cases ha : s.activationOf? j with
  | none => rfl
  | some a =>
    obtain ⟨data, hdata⟩ := activation?_of_activationOf? ha
    rw [Option.bind_some, Option.bind_some,
      h.activation?_eq (lt_size_of_activation? hdata)]

private theorem reflectedArguments?_eq (hrecord : s.isActivation w = true → ¬ changed "arguments")
    (f : FunctionData) : t.reflectedArguments? j f = s.reflectedArguments? j f := by
  have harguments : ∀ a, s.activationOf? j = some a → t.argumentsOf? a = s.argumentsOf? a := by
    intro a ha
    obtain ⟨data, hdata⟩ := activation?_of_activationOf? ha
    refine h.get?_eq fun haw => hrecord ?_
    rw [← haw, isActivation, hdata]
    rfl
  rw [reflectedArguments?, reflectedArguments?, h.calls_eq]
  cases ha : s.activationOf? j with
  | none => rfl
  | some a => rw [Option.map_some, Option.map_some, harguments a ha]

private theorem callerValue?_eq {a : ArgumentsData} (hlt : a.activation.index < s.size)
    (hshows : s.Shows a "caller" w "arguments" → ¬ changed "arguments") :
    t.callerValue? a = s.callerValue? a := by
  rw [callerValue?, callerValue?, h.activation?_eq hlt]
  cases hlazy : a.caller with
  | lazy =>
    cases hc : (s.activation? a.activation).bind (·.caller) with
    | none => rfl
    | some c =>
      have hsame : t.argumentsOf? c = s.argumentsOf? c :=
        h.get?_eq fun hcw => hshows (.caller hlazy (hcw ▸ hc))
      simp only [Option.bind_some, hsame]
  | _ => rfl

/-- What a name is on an object, if no name matters to it that has changed. -/
theorem read_eq (hs : s.Aliased) (hj : j.index < s.size) (hn : j = w → ¬ changed n)
    (hrecord : n = "arguments" → s.isActivation w = true → ¬ changed n)
    (hshows : ∀ a m, s.kind j = .arguments a → s.Shows a n w m → ¬ changed m) :
    t.read j n = s.read j n := by
  have hordinary := h.get?_eq hn
  have hindex : ∀ i, arrayIndex? n = some i → t.readIndex j i = s.readIndex j i := by
    intro i hi
    obtain ⟨rfl, -⟩ := arrayIndex?_eq_some_iff.mp hi
    rw [readIndex, readIndex, h.kind_eq j hj, hordinary]
    cases hkind : s.kind j with
    | arguments a =>
      dsimp only
      cases helement : a.element? i with
      | none => rfl
      | some v =>
        dsimp only
        split
        · next halias =>
          rw [h.get?_eq fun he => hshows a _ hkind (he ▸ .element (by simp [helement]) halias)]
        · rfl
    | _ => rfl
  rw [read, read, h.kind_eq j hj, hordinary]
  cases hkind : s.kind j with
  | array elements =>
    cases hi : arrayIndex? n with
    | none => rfl
    | some i => simp only [hindex i hi]
  | function f =>
    dsimp only
    split
    · rw [h.functionLength_eq]
    · rfl
    · rfl
    · rfl
    · rw [h.reflectedArguments?_eq (hrecord rfl)]
    · rfl
  | arguments a =>
    obtain ⟨⟨data, hdata⟩, -⟩ := hs j a.activation a.unit (by rw [hkind]; rfl)
    have hlt : a.activation.index < s.size := lt_size_of_role (by rw [hdata]; simp)
    dsimp only
    split
    · rfl
    · rfl
    · rw [h.callerValue?_eq hlt (hshows a _ hkind)]
    · cases hi : arrayIndex? n with
      | none => rfl
      | some i => simp only [hindex i hi]
  | _ => rfl

/-! ## Searches -/

omit h in
/-- A read gives the same value in both stores: if it makes no new object, or the stores are equally
large. -/
def Follows (s t : Store) (m : StoreM (Option Value)) : Prop :=
  ∀ v s', m.run s = .ok (v, s') → (s' = s ∨ t.size = s.size) →
    ∃ t', m.run t = .ok (v, t') ∧ (s' = s → t' = t)

private theorem follows_getOwn (hj : j.index < s.size) (hread : t.read j n = s.read j n) :
    Follows s t (StoreM.getOwn j n) := by
  intro v s' hrun hsize
  by_cases hn : n = "prototype" → s.function? j = none
  · rw [getOwn_run hn] at hrun
    rw [getOwn_run (h.function?_eq hj ▸ hn), hread]
    cases hv : s.read j n with
    | error e => rw [hv] at hrun; cases hrun
    | ok w =>
      rw [hv] at hrun
      cases hrun
      exact ⟨t, rfl, fun _ => rfl⟩
  · obtain ⟨rfl, hf⟩ := Classical.not_imp.mp hn
    obtain ⟨f, hf⟩ := Option.ne_none_iff_exists'.mp hf
    obtain ⟨hs, hsame⟩ := read_settlePrototype hf
    obtain ⟨ht, htsame⟩ := read_settlePrototype ((h.function?_eq hj).trans hf)
    rw [getOwn_run_settled, hs] at hrun
    rw [getOwn_run_settled, ht]
    cases hrun
    cases hslot : f.slot with
    | unset =>
      -- The new object is behind all others in both stores.
      have hlt : s.size < (s.settlePrototype j).size := by
        simp [settlePrototype, hf, hslot]
      have hne : s.settlePrototype j ≠ s := fun heq => by rw [heq] at hlt; omega
      rw [hsize.resolve_left hne]
      exact ⟨_, rfl, fun heq => absurd heq hne⟩
    | _ => exact ⟨_, rfl, fun _ => htsame (by simp [hslot])⟩

omit h in
private theorem Follows.search {α : Type} {f : α → StoreM (Option Value)} {found found' : α → Bool}
    {l : List α} (hs : ∀ o, s.Answers (found o) (f o)) (ht : ∀ o, t.Answers (found' o) (f o))
    (hfound : ∀ o ∈ l, found' o = found o)
    (hf : ∀ o ∈ l, l.find? found = some o → Follows s t (f o)) : Follows s t (l.findSomeM? f) := by
  intro v s' hrun hsize
  have hfind : l.find? found' = l.find? found := by
    rw [← head?_filter, ← head?_filter, filter_congr hfound]
  rw [findSomeM?_run l hs] at hrun
  rw [findSomeM?_run l ht, hfind]
  cases ho : l.find? found with
  | none =>
    rw [ho] at hrun
    cases hrun
    exact ⟨t, rfl, fun _ => rfl⟩
  | some o =>
    rw [ho] at hrun
    exact hf o (mem_of_find?_eq_some ho) ho v s' hrun hsize

/-- The prototypes of an object, if they come to an end. -/
theorem prototypes_eq (hl : s.Chained (·.proto) (some o) l) :
    s.prototypes o = l ∧ t.prototypes o = l :=
  ⟨hl.walk_eq, (hl.congr h.size_le fun id hid => h.proto_eq id (hl.bound id hid)).walk_eq⟩

private theorem scopes_eq (hl : s.Chained (·.parent) (some o) l) :
    s.scopes o = l ∧ t.scopes o = l :=
  ⟨hl.walk_eq, (hl.congr h.size_le fun id hid => h.parent_eq id (hl.bound id hid)).walk_eq⟩

section

variable (hl : s.Chained (·.proto) (some o) l)
  (hn : ∀ j ∈ l, j = w → ¬ changed n)

include hl hn

/-- What the chain has stays the same. -/
theorem hasProperty_eq : t.hasProperty o n = s.hasProperty o n := by
  obtain ⟨hprotos, hprotos'⟩ := h.prototypes_eq hl
  rw [hasProperty, hasProperty, hprotos, hprotos']
  refine Bool.eq_iff_iff.mpr ?_
  simp only [any_eq_true]
  refine exists_congr fun j => and_congr_right fun hj => ?_
  rw [h.has_eq (hl.bound j hj) (hn j hj)]

/-- A read follows if the object that has the name reads it as before. -/
theorem follows_getProperty (hs : s.Aliased) (ht : t.Aliased)
    (hread : ∀ j ∈ l, l.find? (s.has · n) = some j → t.read j n = s.read j n) :
    Follows s t (StoreM.getProperty o n) := by
  obtain ⟨hprotos, hprotos'⟩ := h.prototypes_eq hl
  have hsearch : Follows s t (l.findSomeM? fun j => StoreM.getOwn j n) :=
    .search (hs.getOwn_run · n) (ht.getOwn_run · n)
      (fun j hj => h.has_eq (hl.bound j hj) (hn j hj))
      fun j hj hfound => h.follows_getOwn (hl.bound j hj) (hread j hj hfound)
  intro v s' hrun hsize
  have hs' : (StoreM.getProperty o n).run s = (l.findSomeM? fun j => StoreM.getOwn j n).run s := by
    simp only [StoreM.getProperty, StateT.run_bind, StateT.run_get, pure_bind, hprotos]
  have ht' : (StoreM.getProperty o n).run t = (l.findSomeM? fun j => StoreM.getOwn j n).run t := by
    simp only [StoreM.getProperty, StateT.run_bind, StateT.run_get, pure_bind, hprotos']
  rw [hs'] at hrun
  rw [ht']
  exact hsearch v s' hrun hsize

end

/-- A name is looked up as before, if it is where it is found. -/
theorem lookup_eq (hs : s.Aliased) (ht : t.Aliased) (hsize : t.size = s.size)
    (hl : s.Chained (·.parent) (some o) l) (hends : ∀ o ∈ l, ∃ l', s.Chained (·.proto) (some o) l')
    (hn : ¬ changed n)
    (hread : ∀ j, s.holder? o n = some j → j.index < s.size → t.read j n = s.read j n) :
    ∃ answer s' t', (StoreM.lookup o n).run s = .ok (answer, s') ∧
      (StoreM.lookup o n).run t = .ok (answer, t') := by
  have hbind : t.bind? o n = s.bind? o n := by
    rw [bind?, bind?, (h.scopes_eq hl).1, (h.scopes_eq hl).2, ← head?_filter,
      ← head?_filter]
    refine congrArg List.head? (filter_congr fun o' ho' => ?_)
    obtain ⟨l', hl'⟩ := hends o' ho'
    exact h.hasProperty_eq hl' fun j _ _ => hn
  cases ho : s.bind? o n with
  | none => exact ⟨_, _, _, hs.lookup_unbound ho, ht.lookup_unbound (hbind.trans ho)⟩
  | some o' =>
    have hmem : o' ∈ l := (h.scopes_eq hl).1 ▸ mem_of_find?_eq_some ho
    obtain ⟨l', hl'⟩ := hends o' hmem
    obtain ⟨v, s', hproperty, hlookup⟩ := hs.lookup_bound ho
    obtain ⟨v', t', hproperty', hlookup'⟩ := ht.lookup_bound (hbind.trans ho)
    obtain ⟨t'', hfollows, -⟩ := h.follows_getProperty hl' (fun j _ _ => hn) hs ht
      (fun j hj hfound => hread j (by rwa [holder?, ho, Option.bind_some, (h.prototypes_eq hl').1])
        (hl'.bound j hj)) _ s' hproperty (.inr hsize)
    rw [hproperty'] at hfollows
    cases hfollows
    exact ⟨_, _, _, hlookup, hlookup'⟩

end SameBut

/-! ## Scopes -/

/-- An object whose names are its properties: a plain object or the record of a call. -/
def Ordinary (s : Store) (id : ObjId) : Prop :=
  match s.kind id with
  | .plain .. | .activation _ => True
  | _ => False

namespace Ordinary

variable (h : s.Ordinary w)

include h

theorem has_eq (n : String) : s.has w n = (s.properties w).has n := by
  rw [Ordinary] at h
  rw [has]
  split at h <;> simp_all

theorem read_eq (n : String) : s.read w n = .ok ((s.properties w).get? n) := by
  rw [Ordinary] at h
  rw [read]
  split at h <;> simp_all

/-- Such an object is written in its own properties. -/
theorem putOwn_eq (n : String) (v : Value) : s.putOwn w n v = s.putOrdinary w n v := by
  rw [Ordinary] at h
  rw [putOwn]
  split at h <;> simp_all

theorem function?_eq : s.function? w = none := by
  rw [Ordinary] at h
  rw [function?]
  split at h <;> simp_all

/-- Such an object stands for itself. -/
theorem exposed_eq : s.exposed w = w := by
  refine exposed_eq_self ?_
  rw [Ordinary] at h
  rw [isWithScope]
  split at h <;> simp_all

end Ordinary

/-- Where names are assigned: an ordinary object, or the scope of a with statement over one. -/
structure IsScope (s : Store) (o : ObjId) : Prop where
  ends : ∃ l, s.Chained (·.proto) (some o) l
  shape : s.Ordinary o ∨ ∃ target, s.Exposes o target ∧ s.Ordinary target

namespace IsScope

variable (h : s.IsScope o)

include h

private theorem ordinary_exposed : s.Ordinary (s.exposed o) := by
  rcases h.shape with ho | ⟨target, hx, ho⟩
  · rwa [ho.exposed_eq]
  · rwa [hx.exposed_eq, ho.exposed_eq]

/-- Nothing comes before the object that is written. -/
theorem prototypes_eq : ∃ front rest, s.prototypes o = front ++ s.exposed o :: rest ∧
    ∀ j ∈ front, ∀ n, s.has j n = false := by
  obtain ⟨l, hl⟩ := h.ends
  rcases h.shape with ho | ⟨target, hx, ho⟩
  · obtain ⟨rest, hrest⟩ := walk_head (·.proto) (hl.bound o (by cases l <;> simp_all [Chained]))
    exact ⟨[], rest, by rw [ho.exposed_eq]; exact hrest, by simp⟩
  · obtain ⟨l', hl'⟩ := hx.ends
    have htarget : target ∈ l' := by cases l' <;> simp_all [Chained]
    obtain ⟨rest, hrest⟩ := walk_head (·.proto) (hl'.bound target htarget)
    refine ⟨[o], rest, ?_, by simpa using hx.has_eq⟩
    rw [hx.prototypes_eq, hx.exposed_eq, ho.exposed_eq, prototypes, hrest]
    rfl

end IsScope

/-! ## Assignments -/

/-- A walk depends on the links alone. -/
theorem walk_congr {link : Object → Option ObjId}
    (h : ∀ id, link (t.object id) = link (s.object id)) (k : Nat) (start : Option ObjId) :
    t.walk link k start = s.walk link k start := by
  induction k generalizing start with
  | zero => cases start <;> rfl
  | succ k ih =>
    cases start with
    | none => rfl
    | some id => rw [walk, walk, h, ih]

/-- Other properties of one object leave everything else alone. -/
theorem sameBut_setProperties {m : PropertyMap}
    (hm : ∀ n, ¬ changed n → m.find? n = (s.properties w).find? n) :
    SameBut w changed s (s.setProperties w m) := by
  have hkind : ∀ j, (s.setProperties w m).kind j = s.kind j := part_modify (·.kind) rfl
  refine ⟨⟨by simp, fun j _ => hkind j, fun j _ => part_modify (·.proto) rfl j,
    fun j _ => part_modify (·.parent) rfl j, fun j n hn => ?_⟩, fun f => ?_⟩
  · by_cases hj : j = w
    · subst hj
      by_cases hlt : j.index < s.size
      · rw [properties_setProperties _ _ _ _ hlt, if_pos rfl, hm n (hn rfl)]
      · rw [setProperties, modify_of_size_le (by omega)]
    · rw [setProperties, properties, object_modify_ne _ _ hj, properties]
  · have hwalk : (s.setProperties w m).activations = s.activations := by
      rw [activations, activations, size_setProperties]
      exact walk_congr (part_modify callerLink rfl) _ _
    have hact : ∀ a, (s.setProperties w m).activation? a = s.activation? a := fun a => by
      rw [activation?, activation?, hkind]
    simp only [activationOf?, hwalk, hact]

private theorem sameBut_putOrdinary (s : Store) (w : ObjId) (n : String) (v : Value) :
    SameBut w (· = n) s (s.putOrdinary w n v) :=
  sameBut_setProperties fun _ hm => find?_put_ne _ _ hm

private theorem Ordinary.putOrdinary (h : s.Ordinary w) (n : String) (v : Value) :
    (s.putOrdinary w n v).Ordinary w := by
  rw [Ordinary, show (s.putOrdinary w n v).kind w = _ from part_modify (·.kind) rfl w]
  exact h

private theorem has_putOrdinary_self (hlt : w.index < s.size) (h : s.Ordinary w) (n : String)
    (v : Value) : (s.putOrdinary w n v).has w n = true := by
  rw [(h.putOrdinary n v).has_eq, Store.putOrdinary,
    properties_setProperties _ _ _ _ hlt, if_pos rfl, PropertyMap.has, PropertyMap.put]
  split
  · next p hp =>
    split
    · simp [find?_define]
    · simp [hp]
  · simp [find?_define]

/-- The object that an assignment writes to. -/
def written (s : Store) (scope : ObjId) (n : String) : ObjId :=
  s.exposed ((s.bind? scope n).getD (s.topLevel scope))

section

variable {scope : ObjId} (hl : s.Chained (·.parent) (some scope) l)
  (hscopes : ∀ o ∈ l, s.IsScope o) (n : String) (v : Value)

include hl hscopes

/-- The scope that is written to, or through. -/
theorem exists_written : ∃ o ∈ l, s.exposed o = s.written scope n ∧
    ∀ o', s.bind? scope n = some o' → o' = o := by
  have hwalk : s.scopes scope = l := hl.walk_eq
  cases hbind : s.bind? scope n with
  | some o =>
    refine ⟨o, hwalk ▸ mem_of_find?_eq_some hbind, ?_, by simp⟩
    rw [written, hbind]
    rfl
  | none =>
    refine ⟨s.topLevel scope, ?_, ?_, by simp⟩
    · rw [topLevel, hwalk]
      cases l with
      | nil => cases hl
      | cons a rest => simp [getLast?_eq_some_getLast]
    · rw [written, hbind]
      rfl

private theorem ordinary_written : s.Ordinary (s.written scope n) := by
  obtain ⟨o, ho, hwritten, -⟩ := exists_written hl hscopes n
  exact hwritten ▸ (hscopes o ho).ordinary_exposed

private theorem written_lt_size : (s.written scope n).index < s.size := by
  obtain ⟨o, ho, hwritten, -⟩ := exists_written hl hscopes n
  obtain ⟨front, rest, hprotos, -⟩ := (hscopes o ho).prototypes_eq
  obtain ⟨l', hchain⟩ := (hscopes o ho).ends
  refine hchain.bound _ ?_
  rw [← hchain.walk_eq, ← prototypes, hprotos, hwritten]
  simp

private theorem assign_eq : s.assign scope n v = s.putOrdinary (s.written scope n) n v := by
  rw [assign, put, ← written]
  exact (ordinary_written hl hscopes n).putOwn_eq n v

/-- What is found of the name after the assignment is the object that was written. -/
theorem find?_assign (ho : l.find? (fun o => (s.assign scope n v).hasProperty o n) = some o)
    (hj : (s.prototypes o).find? (fun j => (s.assign scope n v).has j n) = some j) :
    j = s.written scope n := by
  rw [assign_eq hl hscopes] at ho hj
  have h := s.sameBut_putOrdinary (s.written scope n) n v
  have hhas : ∀ o ∈ l, ∀ j ∈ s.prototypes o, j ≠ s.written scope n →
      (s.putOrdinary (s.written scope n) n v).has j n = s.has j n := by
    intro o ho j hj hne
    obtain ⟨l', hl'⟩ := (hscopes o ho).ends
    exact h.has_eq (hl'.bound j ((h.prototypes_eq hl').1 ▸ hj)) fun heq => absurd heq hne
  have hself := has_putOrdinary_self (written_lt_size hl hscopes n)
    (ordinary_written hl hscopes n) n v
  have hmem : o ∈ l := mem_of_find?_eq_some ho
  have hjmem := mem_of_find?_eq_some hj
  have hjhas := find?_some hj
  by_contra hne
  -- The name was found here before, so this is the scope that binds it. In this scope nothing comes
  -- before the object that is written.
  have hbind : s.bind? scope n = some o := by
    rw [bind?, (h.scopes_eq hl).1]
    obtain ⟨-, before, behind, hsplit, hbefore⟩ := find?_eq_some_iff_append.mp ho
    refine find?_eq_some_iff_append.mpr ⟨?_, before, behind, hsplit, fun o' ho' => ?_⟩
    · exact any_eq_true.mpr ⟨j, hjmem, by rw [← hhas o hmem j hjmem hne]; exact hjhas⟩
    · have hl' : o' ∈ l := by rw [hsplit]; simp [ho']
      have hnot := hbefore o' ho'
      obtain ⟨l', hchain⟩ := (hscopes o' hl').ends
      simp only [hasProperty, (h.prototypes_eq hchain).1, (h.prototypes_eq hchain).2,
        Bool.not_eq_true', any_eq_false] at hnot ⊢
      intro i hi hsome
      refine hnot i hi ?_
      by_cases hiw : i = s.written scope n
      · rw [hiw]
        exact hself
      · rw [hhas o' hl' i ((h.prototypes_eq hchain).1 ▸ hi) hiw]
        exact hsome
  obtain ⟨front, rest, hprotos, hfront⟩ := (hscopes o hmem).prototypes_eq
  have hw : s.exposed o = s.written scope n := by rw [written, hbind]; rfl
  rw [hw] at hprotos
  have hnone : front.find? (fun j => (s.putOrdinary (s.written scope n) n v).has j n) = none := by
    refine find?_eq_none.mpr fun i hi => ?_
    have hiw : i ≠ s.written scope n := by
      rintro rfl
      obtain ⟨l', hchain⟩ := (hscopes o hmem).ends
      have hnodup := hchain.nodup
      rw [← (h.prototypes_eq hchain).1, hprotos, nodup_append] at hnodup
      exact hnodup.2.2 _ hi _ (by simp) rfl
    rw [hhas o hmem i (by rw [hprotos]; simp [hi]) hiw, hfront i hi]
    simp
  rw [hprotos, find?_append, hnone, Option.none_or, find?_cons, hself] at hj
  exact hne (Option.some.inj hj).symm

/-- The value that was assigned is found. -/
theorem lookup_assign (ht : (s.assign scope n v).Aliased)
    (hw : ∀ p, (s.properties (s.written scope n)).find? n = some p → p.writable = true) :
    (StoreM.lookup scope n).run (s.assign scope n v) = .ok (.ok v, s.assign scope n v) := by
  have hassign := assign_eq hl hscopes n v
  have h := s.sameBut_putOrdinary (s.written scope n) n v
  rw [← hassign] at h
  have hlt := written_lt_size hl hscopes n
  have hordinary := ordinary_written hl hscopes n
  have hself : (s.assign scope n v).has (s.written scope n) n = true :=
    hassign ▸ has_putOrdinary_self hlt hordinary n v
  -- Some scope has the name now: the one that was written to or through.
  obtain ⟨o, ho⟩ : ∃ o, (s.assign scope n v).bind? scope n = some o := by
    obtain ⟨o, ho, hexposed, -⟩ := exists_written hl hscopes n
    obtain ⟨front, rest, hprotos, -⟩ := (hscopes o ho).prototypes_eq
    obtain ⟨l', hchain⟩ := (hscopes o ho).ends
    rw [bind?, (h.scopes_eq hl).2, ← Option.isSome_iff_exists, find?_isSome]
    refine ⟨o, ho, any_eq_true.mpr ⟨s.written scope n, ?_, hself⟩⟩
    rw [(h.prototypes_eq hchain).2, ← (h.prototypes_eq hchain).1, hprotos, hexposed]
    simp
  obtain ⟨u, t', hproperty, hlookup⟩ := ht.lookup_bound ho
  rw [bind?, (h.scopes_eq hl).2] at ho
  obtain ⟨l', hchain⟩ := (hscopes o (mem_of_find?_eq_some ho)).ends
  have hprotos := h.prototypes_eq hchain
  simp only [StoreM.getProperty, StateT.run_bind, StateT.run_get, pure_bind, hprotos.2,
    findSomeM?_run l' (ht.getOwn_run · n)] at hproperty
  cases hj : l'.find? (fun j => (s.assign scope n v).has j n) with
  | none => rw [hj] at hproperty; cases hproperty
  | some j =>
    have hwritten := find?_assign hl hscopes n v ho (hprotos.1 ▸ hj)
    subst hwritten
    have hfun : (s.assign scope n v).function? (s.written scope n) = none := by
      rw [h.function?_eq hlt, hordinary.function?_eq]
    have hread : (s.assign scope n v).read (s.written scope n) n = .ok (some v) := by
      rw [hassign, (hordinary.putOrdinary n v).read_eq, putOrdinary,
        properties_setProperties _ _ _ _ hlt, if_pos rfl, get?,
        find?_put _ _ _ hw, if_pos rfl]
      rfl
    rw [hj] at hproperty
    simp only [getOwn_run fun _ => hfun, hread] at hproperty
    cases hproperty
    exact hlookup

end

end Store

/-- A call with the value `true` of its formal `a` makes another one. In front of its record there
is a plain object over the `arguments` objects of both, that of the inner call first. -/
def Store.overArguments : Store :=
  let unit : CompiledUnit :=
    { (default : CompiledUnit) with argNames := ["a"], argCount := 1, languageVersion := .v12 }
  let (outer, s) := (default : Realm).newActivation ⟨0⟩ unit .allow ⟨0⟩ none [.boolean true]
    (Store.push {} { kind := .plain "Object" none }).2
  let (inner, s) := (default : Realm).newActivation ⟨0⟩ unit .allow ⟨0⟩ none [] (s.enter outer)
  (((s.enter inner).setProto ⟨4⟩ (some ⟨2⟩)).push
    { kind := .plain "Object" none, proto := some ⟨4⟩, parent := some outer }).2

end ScriptEngine
