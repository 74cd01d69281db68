import ScriptEngine.Proofs.BodyNotes
import ScriptEngine.Proofs.CodedTrees

/-!
# Activation records and receivers

A function needs an activation record if something in it can see the record: a with scope, a nested
function, a call that can evaluate code, or a use of one of the names that the record shows. Calls
of a function check their receiver if the function stands inside another one. Both are found while
bodies are lowered, in whatever order functions lead to them, but the outcome is a property of the
trees as they were built: `Forest.observes` for the one, a node for the function for the other.
-/

namespace ScriptEngine

open Ledger Forest

variable {site : Site} {c : Surroundings} {k j : BodyId} {f : Forest} {a b : Ledger} {L : Layout}
  {config : Config} {events : List Event} {raised : BodyId → BodyId → Prop}

/-! ## What can see an activation record -/

/-- The callee of a call that can see the scope of its caller: a function by the name of `eval` or
`With`, or a method by the name of `exec`. The callee is the first of the siblings. -/
def Forest.isSpecialCallee : Forest → Bool
  | .nil => false
  | .cons _ l kids _ =>
    match l.kind with
    | .name => l.string?.any fun name => name = "eval" || name = "With"
    | .getProp => kids.second?.any fun property =>
        property.kind = .string && property.string?.any (· = "exec")
    | _ => false

/-- The activation record of a function can be seen through a node. -/
def Node.observes (config : Config) (parent : Token) (l : Node) (kids : Forest) : Bool :=
  match l.kind with
  | .withBody => true
  | .function => l.function?.isSome
  | .call | .new => kids.isSpecialCallee
  | .getProp => config.isActivationName kids.propertyName ||
      (kids.propertyName == "length" && config.languageVersion = .v12)
  | .name => parent.usesName kids && config.isActivationName (l.string?.getD "")
  | .bindName => config.isActivationName (l.string?.getD "")
  | _ => false

/-- The activation record of a function can be seen through a node of the forest, below a node of
the given kind. -/
def Forest.observes (config : Config) : Token → Forest → Bool
  | _, .nil => false
  | parent, .cons _ l kids rest =>
    l.observes config parent kids || kids.observes config l.kind || rest.observes config parent

/-- A node of the forest stands for the function of a body. -/
def Forest.holdsFunction (body : BodyId) : Forest → Bool
  | .nil => false
  | .cons _ l kids rest => (l.kind = .function && l.function? = some body) ||
      kids.holdsFunction body || rest.holdsFunction body

private theorem Forest.isSpecialCallee_eq (f : Forest) :
    f.isSpecialCallee = f.specialCall?.isSome := by
  have hname (name : String) :
      (SpecialCall.ofName? name).isSome = (name = "eval" || name = "With") := by
    unfold SpecialCall.ofName?
    split
    · simp_all
    · split <;> simp_all
  have hmethod (name : String) : (SpecialCall.ofMethod? name).isSome = (name = "exec" : Bool) := by
    unfold SpecialCall.ofMethod?
    split <;> simp_all
  cases f with
  | nil => rfl
  | cons id l kids rest =>
    simp only [isSpecialCallee, specialCall?]
    cases l.kind with
    | name => simp [Option.isSome_bind, hname]
    | getProp => simp [Option.isSome_bind, hmethod]
    | _ => rfl

namespace Site

variable {id : NodeId} {l : Node} {kids : Forest}

/-- A node in a function asks for an activation record if it can see one. -/
theorem mem_notes_activation (hnests : ∀ k, l.data = .function k → k ≠ site.body) :
    .activation ∈ site.notes c id l kids ∨ site.inFunction = true ∧ c.inWith = true ↔
      site.inFunction = true ∧ (l.observes site.config c.parent kids = true ∨ c.inWith = true) := by
  have hname (name : String) :
      .activation ∈ site.nameNotes c name ∨ site.inFunction = true ∧ c.inWith = true ↔
        site.inFunction = true ∧
          (site.config.isActivationName name = true ∨ c.inWith = true) := by
    rw [mem_nameNotes]
    cases c.inWith <;> simp
  have hcall : .activation ∈ site.callEvents kids ↔
      site.inFunction = true ∧ kids.isSpecialCallee = true := by
    rw [callEvents, isSpecialCallee_eq]
    split <;> simp_all
  unfold notes
  split
  · next hk =>
    simp only [Node.observes, hk, mem_activations]
    tauto
  · next hk =>
    simp only [Node.observes, hk]
    cases hdata : l.data with
    | function k =>
      have hne : k ≠ site.body := hnests k hdata
      simp [Node.function?, hdata, mem_functionNotes, hne]
      tauto
    | none | jump | switch => simp [Node.function?, hdata]
  · next hk =>
    simp only [Node.observes, hk, hcall]
    tauto
  · next hk =>
    simp only [Node.observes, hk, hcall]
    tauto
  · next hk =>
    simp only [Node.observes, hk, accessEvents, true_and]
    split <;> simp_all
  · next hk =>
    simp only [Node.observes, hk]
    cases c.parent.usesName kids with
    | true => simpa using hname _
    | false => simp
  · next hk => simpa only [Node.observes, hk] using hname _
  · next hk => simp [Node.observes, hk]
  · next hk => simp [Node.observes, hk]
  · unfold Node.observes
    split <;> simp_all

/-- The functions inside a function have calls that check their receiver. -/
theorem mem_notes_receiver (hnests : ∀ k, l.data = .function k → k ≠ site.body) :
    .receiver k ∈ site.notes c id l kids ↔
      site.inFunction = true ∧ l.kind = .function ∧ l.function? = some k := by
  unfold notes
  split
  · next hk => simp [hk]
  · next hk =>
    cases hdata : l.data with
    | function k' =>
      have hsame : k = k' ↔ k' = k := eq_comm
      simp [Node.function?, hdata, mem_functionNotes, hk, hnests k' hdata, hsame]
    | none | jump | switch => simp [Node.function?, hdata]
  · next hk =>
    rw [callEvents]
    split <;> simp [hk]
  · next hk =>
    rw [callEvents]
    split <;> simp [hk]
  · next hk =>
    rw [accessEvents]
    split <;> simp [hk]
  · next hk => split <;> simp [mem_nameNotes, hk]
  · next hk => simp [mem_nameNotes, hk]
  · next hk => simp [hk]
  · next hk => simp [hk]
  · simp_all

end Site

namespace Forest

/-- A function needs an activation record if a node in it can see one. -/
theorem mem_notes_activation (hnests : f.All fun l _ => ∀ k, l.data = .function k → k ≠ site.body) :
    .activation ∈ f.notes site c ∨ site.inFunction = true ∧ c.inWith = true ↔
      site.inFunction = true ∧ (f.observes site.config c.parent = true ∨ c.inWith = true) := by
  induction f generalizing c with
  | nil => simp [observes]
  | cons id l kids rest ihk ihr =>
    have hown : .activation ∈ site.notes c id l kids ∨
        site.inFunction = true ∧ c.inWith = true ↔ _ :=
      Site.mem_notes_activation hnests.1
    have hrest := ihr hnests.2.2 (c := c)
    have hkids := ihk hnests.2.1 (c := c.below id l)
    have hparent : (c.below id l).parent = l.kind := rfl
    rw [hparent] at hkids
    simp only [notes_cons, observes, List.mem_append, Bool.or_eq_true]
    cases hin : site.inFunction with
    | false =>
      simp only [hin, Bool.false_eq_true, false_and, or_false, iff_false] at hown hkids hrest
      simp [hown, hkids, hrest]
    | true =>
      -- Inside a with scope there is nothing to show: the scope itself asks for the record.
      cases hin' : c.inWith with
      | true => simp
      | false =>
        simp only [hin, hin', Bool.false_eq_true, and_false, or_false, true_and] at hown hkids hrest
        simp only [hown, hrest, Bool.false_eq_true, and_false, or_false, true_and]
        by_cases hwith : l.kind = .withBody
        · simp [Node.observes, hwith]
        · have hbelow : (c.below id l).inWith = false := by simp [Surroundings.below, hwith, hin']
          simp only [hbelow, Bool.false_eq_true, or_false] at hkids
          rw [hkids, or_assoc]

private theorem mem_notes_receiver
    (hnests : f.All fun l _ => ∀ k, l.data = .function k → k ≠ site.body) :
    .receiver k ∈ f.notes site c ↔ site.inFunction = true ∧ f.holdsFunction k = true := by
  induction f generalizing c with
  | nil => simp [holdsFunction]
  | cons id l kids rest ihk ihr =>
    rw [notes_cons, List.mem_append, List.mem_append, Site.mem_notes_receiver hnests.1,
      ihk hnests.2.1, ihr hnests.2.2]
    simp only [holdsFunction, Bool.or_eq_true, Bool.and_eq_true, decide_eq_true_eq]
    tauto

end Forest

/-! ## Flags of bodies -/

/-- A flag of bodies that only events raise. -/
structure Flag where
  get : Body → Bool
  /-- An event of the first body raises the flag of the second. -/
  raises : BodyId → BodyId → Event → Bool
  apply_eq : ∀ (a : Ledger) (i j : BodyId) (e : Event), j.index < a.bodies.size →
    get ((a.apply i e).body j) = (get (a.body j) || raises i j e)
  finish_eq : ∀ (a : Ledger) (i j : BodyId) (b : Bool),
    get ((a.finish i b).body j) = get (a.body j)
  /-- To meet a function raises nothing by itself. -/
  raises_function : ∀ i j k, raises i j (.function k) = false

private theorem Ledger.body_modify_self (hj : j.index < a.bodies.size)
    (f : Body → Body) : (a.modify j f).body j = f (a.body j) := by
  rw [body, body, modify, Array.getD_eq_getD_getElem?, Array.getElem?_modify, if_pos rfl,
    Array.getD_eq_getD_getElem?, Array.getElem?_eq_getElem hj]
  rfl

namespace Flag

/-- The body needs an activation record. -/
def activation : Flag where
  get := Body.requiresActivation
  raises i j e := i = j && e = .activation
  apply_eq a i j e hj := by
    by_cases h : j ≠ i ∨ e ≠ .activation
    · rw [activation_apply h]
      rcases h with h | h
      · simp [Ne.symm h]
      · simp [h]
    · obtain ⟨rfl, rfl⟩ : j = i ∧ e = .activation := by simpa using h
      simp [apply, body_modify_self hj]
  finish_eq _ _ _ _ := activation_finish
  raises_function _ _ _ := by simp

/-- Calls of the body check their receiver. -/
def receiver : Flag where
  get := Body.checkThis
  raises _ j e := e = .receiver j
  apply_eq a i j e hj := by
    cases e with
    | receiver k =>
      by_cases hk : k = j
      · subst hk
        simp [apply, body_modify_self hj]
      · have hsame := body_modify (a := a) (j := j) (i := k) Body.checkThis
          (f := ({ · with checkThis := true })) fun he => absurd he.symm hk
        simp [apply, hsame, hk]
    | activation | attempt =>
      rw [decide_eq_false (by simp), Bool.or_false]
      exact body_modify (a := a) Body.checkThis fun _ _ => rfl
    | complaint | guard | function | clause => simp [apply, body]
  finish_eq a _ _ _ := body_modify (a := a) Body.checkThis fun _ _ => rfl
  raises_function _ _ _ := by simp

end Flag

namespace Layout

variable {i : BodyId}

/-- After some events of a body, a flag is raised if it was so before, or by one of the events, or
in a body that has been taken up meanwhile. `raised` tells what happens in bodies. -/
theorem Tells.flag_iff (φ : Flag)
    (hraised : ∀ k h inside, k.index < L.size →
      Lowered (L.site config k) [] .list 0 false (L.kids k) h inside →
        ∀ j, (∃ e ∈ inside, φ.raises k j e = true) ↔ raised k j)
    (h : L.Tells config i a events b) (hj : j.index < a.bodies.size) :
    φ.get (b.body j) = true ↔ φ.get (a.body j) = true ∨ (∃ e ∈ events, φ.raises i j e = true) ∨
      ∃ k, a.Waits k ∧ ¬ b.Waits k ∧ raised k j := by
  induction h with
  | nil =>
    refine ⟨.inl, ?_⟩
    rintro (h | ⟨e, he, -⟩ | ⟨k, hwaits, hnot, -⟩)
    exacts [h, absurd he List.not_mem_nil, absurd hwaits hnot]
  | own _ _ ih =>
    rw [ih (by rwa [size_apply]), φ.apply_eq _ _ _ _ hj]
    simp only [Ledger.Waits, started_apply, Bool.or_eq_true, List.mem_cons, exists_eq_or_imp,
      or_assoc]
  | again _ _ _ ih =>
    rw [ih hj]
    simp only [List.mem_cons, exists_eq_or_imp, φ.raises_function, Bool.false_eq_true, false_or]
  | @first i a k h inside c rest b hk hwaits hlowered hinside hrest ih ih' =>
    have hj' : j.index < c.bodies.size := by rwa [hinside.size_eq]
    -- The bodies taken up are this one, those met inside it, and those met after it.
    have htaken (m : BodyId) : a.Waits m ∧ ¬ b.Waits m ↔
        m = k ∨ ((a.start k).Waits m ∧ ¬ c.Waits m) ∨ (c.Waits m ∧ ¬ b.Waits m) := by
      have hc : c.Waits m → (a.start k).Waits m := hinside.waits
      have hb : b.Waits m → c.Waits m := hrest.waits
      rw [Tells.waits_start_iff] at hc ⊢
      constructor
      · rintro ⟨ha, hnot⟩
        by_cases hm : m = k
        · exact .inl hm
        · by_cases hcm : c.Waits m
          exacts [.inr (.inr ⟨hcm, hnot⟩), .inr (.inl ⟨⟨ha, hm⟩, hcm⟩)]
      · rintro (rfl | ⟨⟨ha, -⟩, hnot⟩ | ⟨hcm, hnot⟩)
        exacts [⟨hwaits, fun hbm => (hc (hb hbm)).2 rfl⟩, ⟨ha, fun hbm => hnot (hb hbm)⟩,
          ⟨(hc hcm).1, hnot⟩]
    rw [ih' (by rwa [size_finish]), φ.finish_eq, ih hj, hraised k h inside hk hlowered j]
    simp only [List.mem_cons, φ.raises_function, Bool.false_eq_true, false_or, ← and_assoc, htaken,
      or_and_right, exists_or, exists_eq_left]
    show (φ.get (a.body j) = true ∨ raised k j ∨ _) ∨ _ ∨ (∃ m, (c.Waits m ∧ _) ∧ _) ↔ _
    rw [or_assoc, or_assoc, or_left_comm (b := ∃ e ∈ rest, φ.raises i j e = true),
      or_left_comm (b := ∃ e ∈ rest, φ.raises i j e = true)]

/-- Once all bodies have been taken up, a flag that was down is raised if it is raised in some
body. -/
theorem flag_iff_exists (φ : Flag)
    (hraised : ∀ k h inside, k.index < L.size →
      Lowered (L.site config k) [] .list 0 false (L.kids k) h inside →
        ∀ j, (∃ e ∈ inside, φ.raises k j e = true) ↔ raised k j)
    (h : L.TellsAll config b)
    (hj : j.index < L.size) (hdown : φ.get (L.program.body j) = false) :
    φ.get (b.body j) = true ↔ ∃ k : BodyId, k.index < L.size ∧ raised k j := by
  have hstart : φ.get ((L.start config).ledger.body j) = false := hdown
  have hevents : ¬ ∃ e ∈ (List.range L.size).map fun n => Event.function ⟨n⟩,
      φ.raises .script j e = true := by
    simp [φ.raises_function]
  rw [h.flag_iff φ hraised hj, hstart]
  simp only [Bool.false_eq_true, false_or, hevents]
  refine exists_congr fun k => ⟨fun ⟨hwaits, _, hk⟩ => ⟨waits_start_ledger.mp hwaits, hk⟩,
    fun ⟨hlt, hk⟩ => ⟨waits_start_ledger.mpr hlt, ?_, hk⟩⟩
  exact h.not_waits (List.mem_map.mpr ⟨k.index, List.mem_range.mpr hlt, rfl⟩)

end Layout

/-! ## Programs -/

/-- Functions come behind the bodies that they are in. -/
theorem Program.Framed.nests {p : Program} (h : p.Framed []) (hj : j.index < p.bodies.size) :
    (p.statements j).All fun l _ => ∀ k, l.data = .function k → k ≠ j :=
  (h.placed hj).fits.imp fun _ _ hfits k hk he => Nat.lt_irrefl _ (he ▸ (hfits.function k hk).1)

private theorem Tree.Spells.holdsFunction_iff {t : Tree} (h : t.Spells f) :
    f.holdsFunction k = true ↔ ∃ id ∈ f.ids, t.kind id = .function ∧ t.function? id = some k := by
  induction f with
  | nil => simp [holdsFunction]
  | cons id l kids rest ihk ihr =>
    obtain ⟨⟨-, hlabel, -⟩, hkids, hrest⟩ := h
    have hkind : t.kind id = l.kind := by rw [t.kind_eq_label, hlabel]
    have hfunction : t.function? id = l.function? := by rw [t.function?_eq_label, hlabel]
    simp only [holdsFunction, Bool.or_eq_true, Bool.and_eq_true, decide_eq_true_eq, ihk hkids,
      ihr hrest, ids_cons, List.mem_cons, List.mem_append, or_and_right, exists_or,
      exists_eq_left, hkind, hfunction, or_assoc]

namespace Layout

variable {h : Forest}

/-- A function needs an activation record if its record can be seen in it. -/
theorem requiresActivation_iff (hframed : L.program.Framed [])
    (h : L.TellsAll config b) (hj : j.index < L.size) :
    (b.body j).requiresActivation = true ↔ (L.program.body j).isFunction = true ∧
      (L.program.statements j).observes config (L.program.tree.kind (L.root j)) = true := by
  let raised (k j : BodyId) : Prop := k = j ∧ (L.program.body k).isFunction = true ∧
    (L.program.statements k).observes config (L.program.tree.kind (L.root k)) = true
  have hraised (k : BodyId) (h : Forest) (inside : List Event) (hk : k.index < L.size)
      (hlow : Lowered (L.site config k) [] .list 0 false (L.kids k) h inside) (j : BodyId) :
      (∃ e ∈ inside, Flag.activation.raises k j e = true) ↔ raised k j := by
    have hnotes : .activation ∈ (L.program.statements k).notes (L.site config k)
        (L.program.surroundings k) ∨ _ ↔ _ :=
      mem_notes_activation (hframed.nests hk)
    rw [← notes_body hframed hk hlow, List.mem_filter] at hnotes
    have hmem : .activation ∈ inside ↔ (L.program.body k).isFunction = true ∧
        (L.program.statements k).observes config (L.program.tree.kind (L.root k)) = true := by
      simp only [Event.isNote, Program.surroundings, Bool.false_eq_true, and_true, and_false,
        or_false] at hnotes
      exact hnotes
    simp [Flag.activation, raised, hmem, and_comm]
  have hdown : (L.program.body j).requiresActivation = false :=
    (hframed.untouched j hj).requiresActivation_eq
  refine (flag_iff_exists Flag.activation hraised h hj hdown).trans ⟨?_, fun hin => ?_⟩
  · rintro ⟨k, -, rfl, hin⟩
    exact hin
  · exact ⟨j, hj, rfl, hin⟩

/-- Calls of a function check their receiver if the function stands in another one. -/
theorem checkThis_iff (hframed : L.program.Framed [])
    (h : L.TellsAll config b) (hj : j.index < L.size) :
    (b.body j).checkThis = true ↔ ∃ k : BodyId, k.index < L.size ∧
      (L.program.body k).isFunction = true ∧ (L.program.statements k).holdsFunction j = true := by
  have hraised (k : BodyId) (h : Forest) (inside : List Event) (hk : k.index < L.size)
      (hlow : Lowered (L.site config k) [] .list 0 false (L.kids k) h inside) (j : BodyId) :
      (∃ e ∈ inside, Flag.receiver.raises k j e = true) ↔ (L.program.body k).isFunction = true ∧
        (L.program.statements k).holdsFunction j = true := by
    have hnotes : .receiver j ∈ (L.program.statements k).notes (L.site config k)
        (L.program.surroundings k) ↔ _ :=
      mem_notes_receiver (hframed.nests hk)
    rw [← notes_body hframed hk hlow, List.mem_filter] at hnotes
    have hmem : .receiver j ∈ inside ↔ (L.program.body k).isFunction = true ∧
        (L.program.statements k).holdsFunction j = true := by
      simp only [Event.isNote, and_true] at hnotes
      exact hnotes
    simp [Flag.receiver, hmem]
  exact flag_iff_exists Flag.receiver hraised h hj (hframed.untouched j hj).checkThis_eq

end Layout

/-- The flags of bodies after lowering are exact. A function needs an activation record if some node
in it, as it was built, can see the record, wherever it stands; a script never does. Calls of a body
check their receiver if a node for its function stands in some function. -/
theorem activation_flags_exact {script : Document.Script} {fallback : Option String} {p : Program}
    (hops : script.usesOperators) (hbuild : Document.build script fallback = .ok (.ok p))
    (config : Config) :
    ∃ q diagnostics, p.lower config = .ok (q, diagnostics) ∧ q.bodies.size = p.bodies.size ∧
      (q.body .script).requiresActivation = false ∧
      ∀ j : BodyId, j.index < p.bodies.size →
        ((q.body j).requiresActivation = true ↔ j ≠ .script ∧
          (p.statements j).observes config (p.tree.kind (p.body j).root) = true) ∧
        ((q.body j).checkThis = true ↔ ∃ i : BodyId, i.index < p.bodies.size ∧ i ≠ .script ∧
          ∃ id ∈ (p.statements i).ids,
            p.tree.kind id = .function ∧ p.tree.function? id = some j) := by
  obtain ⟨hframed, hsize⟩ := Document.build_framed hops hbuild
  obtain ⟨L, rfl⟩ := hframed.exists_layout
  obtain ⟨s, hlower, hs, hdone, htells⟩ := L.lower_eq config
  have hfunction (j : BodyId) (hj : j.index < L.size) :
      (L.program.body j).isFunction = true ↔ j ≠ .script := by
    rw [(hframed.untouched j hj).isFunction_eq, decide_eq_true_eq]
  have hactivation (j : BodyId) (hj : j.index < L.size) :
      (s.program.body j).requiresActivation = true ↔ _ :=
    Layout.requiresActivation_iff hframed htells hj
  refine ⟨s.program, s.diagnostics, hlower, hs.bodies_size, ?_, fun j hj => ⟨?_, ?_⟩⟩
  · rw [← Bool.not_eq_true, hactivation .script hsize, hfunction .script hsize]
    simp
  · rw [hactivation j hj, hfunction j hj]
    rfl
  · have hthis : (s.program.body j).checkThis = true ↔ _ := Layout.checkThis_iff hframed htells hj
    rw [hthis]
    refine exists_congr fun i => and_congr_right fun hi => ?_
    rw [hfunction i hi, (L.spells_statements hi).holdsFunction_iff]

/-- A function that only uses its parameter, one that catches what it throws, and one with a
function inside. -/
theorem activation_flags_exact_of_functions :
    let script : Document.Script := ⟨none, [
      .function (.mk "f" ["a"] [.expr (.assign (.name "a") .null) 1] 1 2 none),
      .function (.mk "g" [] [.tryCatch [.expr (.name "b") 3] [.mk "e" none [] 4] none 3] 3 5 none),
      .function (.mk "h" [] [.function (.mk "k" [] [] 6 6 none)] 5 7 none)], 7⟩
    ∃ p q diagnostics, script.usesOperators = true ∧ Document.build script none = .ok (.ok p) ∧
      p.lower {} = .ok (q, diagnostics) ∧
      (p.statements ⟨1⟩).observes {} (p.tree.kind (p.body ⟨1⟩).root) = false ∧
      (q.body ⟨1⟩).requiresActivation = false ∧
      (p.statements ⟨2⟩).observes {} (p.tree.kind (p.body ⟨2⟩).root) = true ∧
      (q.body ⟨2⟩).requiresActivation = true ∧ (q.body ⟨3⟩).requiresActivation = true ∧
      (q.body ⟨3⟩).checkThis = false ∧ (q.body ⟨4⟩).checkThis = true := by
  intro script
  have hops : script.usesOperators = true := by decide
  have hmade : Document.buildsTo script none (fun p => decide (p.bodies.size = 5 ∧
      (p.statements ⟨1⟩).observes {} (p.tree.kind (p.body ⟨1⟩).root) = false ∧
      (p.statements ⟨2⟩).observes {} (p.tree.kind (p.body ⟨2⟩).root) = true ∧
      (p.statements ⟨3⟩).observes {} (p.tree.kind (p.body ⟨3⟩).root) = true ∧
      (∀ i ∈ List.range 5, i ≠ 0 → ∀ id ∈ (p.statements ⟨i⟩).ids, p.tree.function? id ≠ some ⟨3⟩) ∧
      ∃ id ∈ (p.statements ⟨3⟩).ids, p.tree.kind id = .function ∧
        p.tree.function? id = some ⟨4⟩)) = true := by
    decide +kernel
  obtain ⟨p, hbuild, htest⟩ := Document.exists_buildsTo hmade
  obtain ⟨q, diagnostics, hlower, -, -, hall⟩ := activation_flags_exact hops hbuild {}
  obtain ⟨hsize, hone, htwo, hthree, houter, hinner⟩ := of_decide_eq_true htest
  rw [hsize] at hall
  refine ⟨p, q, diagnostics, hops, hbuild, hlower, hone, ?_, htwo, ?_, ?_, ?_, ?_⟩
  · rw [← Bool.not_eq_true, (hall ⟨1⟩ (by decide)).1, hone]
    simp
  · exact (hall ⟨2⟩ (by decide)).1.mpr ⟨by decide, htwo⟩
  · exact (hall ⟨3⟩ (by decide)).1.mpr ⟨by decide, hthree⟩
  · rw [← Bool.not_eq_true, (hall ⟨3⟩ (by decide)).2]
    rintro ⟨i, hi, hne, id, hid, -, hfunction⟩
    exact houter i.index (List.mem_range.mpr hi) (fun he => hne (congrArg BodyId.mk he)) id hid
      hfunction
  · exact (hall ⟨4⟩ (by decide)).2.mpr ⟨⟨3⟩, by decide, by decide, hinner⟩

end ScriptEngine
