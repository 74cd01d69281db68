import Mathlib.Algebra.BigOperators.Group.Finset.Piecewise
import Mathlib.Algebra.Order.BigOperators.Group.Finset
import ScriptEngine.Lowering.Lower
import ScriptEngine.Proofs.BuilderFrames
import ScriptEngine.Proofs.LoweredTrees
import ScriptEngine.Proofs.SlotChanges

/-!
# Programs half lowered

The bodies of a program stand apart in the arena; a `Layout` knows the forest of each one before
lowering. A body that has not been taken up waits, and its nodes are as they were. Lowering part of
another body leaves them alone, and all nodes of other bodies that it does not meet, except that it
takes up and finishes the bodies whose functions it meets on its way. `Layout.Stretch` says so of
two states.

Apart from the labels and links of the arena, the state has a ledger: the records of the bodies,
which of them are taken up, the complaints, and the clauses that are recorded with switches.
`Layout.Tells` says that events account for all that has changed there.
-/

namespace ScriptEngine

open List

variable {j i : BodyId} {q : NodeId} {α : Type} {b : Bool} {config : Config}
  {events events' : List Event} {s s1 s2 : LoweringState} {first : Nat}

/-- Records one more clause. -/
def SwitchData.record (isCase : Bool) (node : NodeId) (s : SwitchData) : SwitchData :=
  if isCase then { s with cases := s.cases ++ [node] } else { s with fallback := some node }

/-! ## Layouts -/

/-- A program whose bodies stand apart, with the statements of each. -/
structure Layout where
  program : Program
  kids : BodyId → Forest
  linked : program.tree.Linked
  acyclic : program.tree.Acyclic
  root_inj : ∀ i j : BodyId, i.index < program.bodies.size → j.index < program.bodies.size →
    (program.body i).root = (program.body j).root → i = j
  stands : ∀ j : BodyId, j.index < program.bodies.size →
    ∃ l, program.tree.Stands (.tree (program.body j).root l (kids j))
  built : ∀ j : BodyId, j.index < program.bodies.size →
    (kids j).IsBuilt .list
  fits : ∀ j : BodyId, (kids j).All fun l _ => l.Fits (program.limits j)

/-- A framed program has a layout. -/
theorem Program.Framed.exists_layout {p : Program} (h : p.Framed []) :
    ∃ L : Layout, L.program = p := by
  have hkids : ∀ j : BodyId, ∃ kids : Forest, (kids.All fun l _ => l.Fits (p.limits j)) ∧
      (j.index < p.bodies.size →
        (∃ l, p.tree.Stands (.tree (p.body j).root l kids)) ∧ kids.IsBuilt .list) := by
    intro j
    by_cases hj : j.index < p.bodies.size
    · obtain ⟨l, kids, -, hst, hmade⟩ := h.rooted j hj
      exact ⟨kids, hmade.placed.fits, fun _ => ⟨⟨l, hst⟩, hmade.isBuilt⟩⟩
    · exact ⟨.nil, trivial, fun hlt => absurd hlt hj⟩
  choose kids hfits hall using hkids
  exact ⟨⟨p, kids, h.linked, h.acyclic, h.root_inj, fun j hj => (hall j hj).1,
    fun j hj => (hall j hj).2, hfits⟩, rfl⟩

namespace Layout

variable (L : Layout)

/-- How many bodies there are. -/
def size : Nat := L.program.bodies.size

/-- How many nodes there are before lowering. -/
def nodeCount : Nat := L.program.tree.size

def root (j : BodyId) : NodeId := (L.program.body j).root

/-- What the root of a body says. -/
def rootLabel (j : BodyId) : Node := L.program.tree.label (L.root j)

/-- The nodes of a body before lowering. -/
def nodes (j : BodyId) : List NodeId := L.root j :: (L.kids j).ids

variable {L} {k : BodyId}

/-- The bodies stand in the tree. -/
theorem stands_root (hj : j.index < L.size) :
    L.program.tree.Stands (.tree (L.root j) (L.rootLabel j) (L.kids j)) := by
  obtain ⟨l, hst⟩ := L.stands j hj
  have hl : L.rootLabel j = l := hst.1.1.2.1
  exact hl ▸ hst

private theorem nodes_eq (j : BodyId) (l : Node) :
    L.nodes j = (Forest.tree (L.root j) l (L.kids j)).ids := by
  simp [nodes]

/-- The nodes of a body are nodes of the program. -/
theorem nodes_lt (hj : j.index < L.size) (hq : q ∈ L.nodes j) : q.index < L.nodeCount := by
  obtain ⟨l, hst⟩ := L.stands j hj
  rw [nodes_eq j l] at hq
  exact hst.1.bound hq

/-- No node stands twice in a body. -/
theorem nodes_nodup (hj : j.index < L.size) : (L.nodes j).Nodup := by
  obtain ⟨l, hst⟩ := L.stands j hj
  rw [nodes_eq j l]
  exact L.linked.nodup_of_stands hst (by simp)

/-- Bodies share no nodes. -/
theorem nodes_disjoint (hj : j.index < L.size) (hk : k.index < L.size) (hne : j ≠ k)
    (hq : q ∈ L.nodes j) : q ∉ L.nodes k := by
  obtain ⟨l, hst⟩ := L.stands j hj
  obtain ⟨l', hst'⟩ := L.stands k hk
  rw [nodes_eq j l] at hq
  rw [nodes_eq k l']
  refine L.linked.disjoint_of_stands hst hst' (fun r hr hr' => hne ?_) q hq
  simp only [Forest.roots_cons, Forest.roots_nil, mem_singleton] at hr hr'
  exact L.root_inj j k hj hk (hr.symm.trans hr')

/-- All nodes of all bodies are different nodes of the arena. -/
theorem sum_count_le : ∑ i ∈ Finset.range L.size, ((L.kids ⟨i⟩).count + 1) ≤ L.nodeCount := by
  have hnodup : ((List.range L.size).flatMap fun i => L.nodes ⟨i⟩).Nodup := by
    rw [nodup_flatMap]
    refine ⟨fun i hi => nodes_nodup (mem_range.mp hi), ?_⟩
    refine Pairwise.imp_of_mem (R := fun a b => a ≠ b) ?_ nodup_range
    intro a b ha hb hne q hqa hqb
    exact nodes_disjoint (mem_range.mp ha) (mem_range.mp hb) (by simpa using hne) hqa hqb
  have hlen := Tree.length_le_size (t := L.program.tree) hnodup fun q hq => by
    obtain ⟨i, hi, hq⟩ := mem_flatMap.mp hq
    exact nodes_lt (mem_range.mp hi) hq
  rw [length_flatMap] at hlen
  refine Nat.le_trans (Nat.le_of_eq ?_) hlen
  have hrange : Finset.range L.size = (List.range L.size).toFinset := by
    ext i
    simp
  rw [hrange, sum_toFinset _ nodup_range]
  simp [nodes, Forest.length_ids]

end Layout

/-! ## Ledgers -/

/-- What lowering leaves as it is in the record of a body. -/
def Body.frozen (b : Body) : Body :=
  { b with requiresActivation := false, checkThis := false, hasFinally := false, localCount := 0 }

/-- What is left as it is agrees. -/
theorem Body.congr_frozen (g : Body → α) {a b : Body} (h : a.frozen = b.frozen)
    (hg : ∀ b : Body, g b.frozen = g b) : g a = g b := by
  rw [← hg a, ← hg b, h]

/-- What lowering knows, apart from labels and links of the arena and its place in it. -/
structure Ledger where
  /-- Which bodies have been taken up. -/
  started : Array Bool
  bodies : Array Body
  diagnostics : Diagnostics
  /-- A finally block of the current body has been met. -/
  hasFinally : Bool
  /-- The clauses of the switches. -/
  clauses : NodeId → SwitchData

namespace Ledger

def body (a : Ledger) (j : BodyId) : Body := a.bodies.getD j.index default

def modify (a : Ledger) (j : BodyId) (f : Body → Body) : Ledger :=
  { a with bodies := a.bodies.modify j.index f }

/-- The body has not been taken up. -/
def Waits (a : Ledger) (j : BodyId) : Prop := a.started[j.index]? = some false

/-- What an event of a body changes. -/
def apply (i : BodyId) (a : Ledger) : Event → Ledger
  | .complaint line error =>
    { a with
      diagnostics := a.diagnostics.pushError error.message (a.body i).sourceName line }
  | .activation => a.modify i ({ · with requiresActivation := true })
  | .attempt => a.modify i fun b => { b with localCount := b.localCount + 1 }
  | .guard => { a with hasFinally := true }
  | .receiver j => a.modify j ({ · with checkThis := true })
  | .function _ => a
  | .clause switch isCase node =>
    { a with
      clauses := Function.update a.clauses switch ((a.clauses switch).record isCase node) }

/-- A body is taken up. -/
def start (a : Ledger) (j : BodyId) : Ledger :=
  { a with started := a.started.setIfInBounds j.index true, hasFinally := false }

/-- A body is finished, and lowering goes on with another one. -/
def finish (a : Ledger) (j : BodyId) (hasFinally : Bool) : Ledger :=
  { a.modify j (fun b => { b with hasFinally := b.hasFinally || a.hasFinally }) with hasFinally }

variable {a : Ledger} {e : Event}

@[simp] theorem started_apply : (a.apply i e).started = a.started := by cases e <;> rfl

@[simp] theorem size_apply : (a.apply i e).bodies.size = a.bodies.size := by
  cases e <;> simp [apply, modify]

@[simp] theorem size_finish : (a.finish j b).bodies.size = a.bodies.size := by
  simp [finish, modify]

private theorem hasFinally_apply (hown : ∀ j, e ≠ .function j) :
    (a.apply i e).hasFinally = met a.hasFinally [e] := by
  cases e <;> simp [apply, modify, met]

/-- What a change of one record keeps, it keeps in all. -/
theorem body_modify (g : Body → α) {f : Body → Body} (hf : j = i → ∀ b, g (f b) = g b) :
    g ((a.modify i f).body j) = g (a.body j) := by
  simp only [body, modify, Array.getD_eq_getD_getElem?, Array.getElem?_modify]
  split
  · next hij =>
    cases a.bodies[j.index]? with
    | none => rfl
    | some b => exact hf (by cases i; cases j; simp_all) b
  · rfl

theorem frozen_apply : ((a.apply i e).body j).frozen = (a.body j).frozen := by
  cases e <;> first | rfl | exact body_modify Body.frozen fun _ _ => rfl

theorem frozen_finish : ((a.finish i b).body j).frozen = (a.body j).frozen :=
  body_modify (a := a) Body.frozen fun _ _ => rfl

/-- Only a body itself asks for its activation record. -/
theorem activation_apply (h : j ≠ i ∨ e ≠ .activation) :
    ((a.apply i e).body j).requiresActivation = (a.body j).requiresActivation := by
  cases e with
  | activation =>
    exact body_modify Body.requiresActivation fun hj => (h.resolve_right (by simp) hj).elim
  | attempt | receiver => exact body_modify Body.requiresActivation fun _ _ => rfl
  | complaint | guard | function | clause => rfl

theorem activation_finish :
    ((a.finish i b).body j).requiresActivation = (a.body j).requiresActivation :=
  body_modify (a := a) Body.requiresActivation fun _ _ => rfl

private theorem activation_of_apply (h : (a.body j).requiresActivation = true) :
    ((a.apply i e).body j).requiresActivation = true := by
  by_cases hcase : j ≠ i ∨ e ≠ .activation
  · rw [activation_apply hcase, h]
  · obtain ⟨rfl, rfl⟩ : j = i ∧ e = .activation := by simpa using hcase
    simp only [apply, body, modify, Array.getD_eq_getD_getElem?, Array.getElem?_modify] at h ⊢
    cases hb : a.bodies[j.index]? <;> simp_all

end Ledger

namespace Layout

/-- What lowering knows when it takes up a body. -/
def site (L : Layout) (config : Config) (i : BodyId) : Site where
  config
  marks := (L.kids i).Marks 0
  body := i
  inFunction := (L.program.body i).isFunction
  first := L.nodeCount

/-- Events of a body account for the change of a ledger. A function that is met for the first time
is lowered on the way. -/
inductive Tells (L : Layout) (config : Config) : BodyId → Ledger → List Event → Ledger → Prop
  | nil {i a} : Tells L config i a [] a
  | own {i a e rest b} (hown : ∀ j, e ≠ .function j)
      (hrest : Tells L config i (a.apply i e) rest b) :
      Tells L config i a (e :: rest) b
  | again {i a j rest b} (hj : j.index < L.size) (hnot : ¬ a.Waits j)
      (hrest : Tells L config i a rest b) :
      Tells L config i a (.function j :: rest) b
  | first {i a j h inside c rest b} (hj : j.index < L.size) (hwaits : a.Waits j)
      (hlowered : Lowered (L.site config j) [] .list 0 false (L.kids j) h inside)
      (hinside : Tells L config j (a.start j) inside c)
      (hrest : Tells L config i (c.finish j a.hasFinally) rest b) :
      Tells L config i a (.function j :: rest) b

namespace Tells

variable {L : Layout} {a b c : Ledger}

/-- Some events and then others. -/
theorem append (h : L.Tells config i a events b) (h' : L.Tells config i b events' c) :
    L.Tells config i a (events ++ events') c := by
  induction h with
  | nil => exact h'
  | own hown _ ih => exact .own hown (ih h')
  | again hj hnot _ ih => exact .again hj hnot (ih h')
  | first hj hwaits hlowered hinside _ _ ih => exact .first hj hwaits hlowered hinside (ih h')

/-- Events without functions change the ledger one after the other. -/
theorem of_own (hown : ∀ e ∈ events, ∀ j, e ≠ .function j) :
    L.Tells config i a events (events.foldl (Ledger.apply i) a) := by
  induction events generalizing a with
  | nil => exact .nil
  | cons e rest ih =>
    exact .own (hown e (by simp)) (ih fun e' he' => hown e' (by simp [he']))

/-- A body that has been taken up does not wait. -/
theorem waits_start (hwaits : (a.start i).Waits j) : a.Waits j ∧ j ≠ i := by
  simp only [Ledger.Waits, Ledger.start, Array.getElem?_setIfInBounds] at hwaits ⊢
  split at hwaits
  · split at hwaits <;> simp at hwaits
  · next hne => exact ⟨hwaits, fun he => hne (by rw [he])⟩

theorem waits_start_iff : (a.start i).Waits j ↔ a.Waits j ∧ j ≠ i := by
  refine ⟨waits_start, fun ⟨hj, hne⟩ => ?_⟩
  have hidx : i.index ≠ j.index := fun he => hne (by cases i; cases j; simp_all)
  rwa [Ledger.Waits, Ledger.start, Array.getElem?_setIfInBounds_ne hidx]

variable (h : L.Tells config i a events b)

include h

/-- No body is put back. -/
theorem waits (hb : b.Waits j) : a.Waits j := by
  induction h with
  | nil => exact hb
  | own _ _ ih =>
    have := ih hb
    rwa [Ledger.Waits, Ledger.started_apply] at this
  | again _ _ _ ih => exact ih hb
  | first _ _ _ _ _ ih ih' => exact (waits_start (ih (ih' hb))).1

/-- A body that has been met does not wait any more. -/
theorem not_waits (hj : .function j ∈ events) : ¬ b.Waits j := by
  induction h with
  | nil => cases hj
  | own hown _ ih =>
    rcases mem_cons.mp hj with rfl | hj
    · exact absurd rfl (hown j)
    · exact ih hj
  | again _ hnot hrest ih =>
    rcases mem_cons.mp hj with hj | hj
    · cases hj
      exact fun hb => hnot (hrest.waits hb)
    · exact ih hj
  | first _ _ _ hinside hrest _ ih =>
    rcases mem_cons.mp hj with hj | hj
    · cases hj
      exact fun hb => (waits_start (hinside.waits (hrest.waits hb))).2 rfl
    · exact ih hj

/-- No events add bodies. -/
theorem size_eq : b.bodies.size = a.bodies.size := by
  induction h with
  | nil => rfl
  | own _ _ ih => rw [ih, Ledger.size_apply]
  | again _ _ _ ih => exact ih
  | first _ _ _ _ _ ih ih' => rw [ih', Ledger.size_finish, ih]; rfl

/-- Records change only where they may. -/
theorem frozen_eq (j : BodyId) : (b.body j).frozen = (a.body j).frozen := by
  induction h with
  | nil => rfl
  | own _ _ ih => rw [ih, Ledger.frozen_apply]
  | again _ _ _ ih => exact ih
  | first _ _ _ _ _ ih ih' => rw [ih', Ledger.frozen_finish, ih]; rfl

private theorem hasFinally_eq : b.hasFinally = met a.hasFinally events := by
  induction h with
  | nil => simp
  | @own _ _ e rest _ hown _ ih =>
    rw [ih, Ledger.hasFinally_apply hown, ← met_append, singleton_append]
  | again _ _ _ ih => simpa [met] using ih
  | first _ _ _ _ _ _ ih => simpa [met, Ledger.finish] using ih

/-- An activation record that is asked for is not given up again. -/
theorem activation_mono (ha : (a.body j).requiresActivation = true) : (b.body j).requiresActivation
    = true := by
  induction h with
  | nil => exact ha
  | own _ _ ih => exact ih (Ledger.activation_of_apply ha)
  | again _ _ _ ih => exact ih ha
  | first _ _ _ _ _ ih ih' => exact ih' (Ledger.activation_finish.trans (ih ha))

/-- Other bodies that are taken up already keep what is known about activation records. -/
theorem activation_eq (hne : j ≠ i) (hj : ¬ a.Waits j) :
    (b.body j).requiresActivation = (a.body j).requiresActivation := by
  induction h with
  | nil => rfl
  | own _ _ ih =>
    rw [ih hne (by rwa [Ledger.Waits, Ledger.started_apply]), Ledger.activation_apply (.inl hne)]
  | again _ _ _ ih => exact ih hne hj
  | @first i a k _ _ c _ _ _ hwaits _ hinside _ ih ih' =>
    have hjk : j ≠ k := by
      rintro rfl
      exact hj hwaits
    have hjc : ¬ c.Waits j := fun hc => hj (waits_start (hinside.waits hc)).1
    rw [ih' hne hjc, Ledger.activation_finish, ih hjk fun hs => hj (waits_start hs).1]
    rfl

end Tells

end Layout

/-! ## States -/

namespace LoweringState

/-- The arena of the program. -/
@[reducible] def tree (s : LoweringState) : Tree := s.program.tree

/-- What is known apart from labels and links. -/
def ledger (s : LoweringState) : Ledger where
  started := s.started
  bodies := s.program.bodies
  diagnostics := s.diagnostics
  hasFinally := s.body.hasFinally
  clauses := s.tree.clauses

/-- The body has not been taken up. -/
def Waits (s : LoweringState) (j : BodyId) : Prop := s.started[j.index]? = some false

instance (s : LoweringState) (j : BodyId) : Decidable (s.Waits j) :=
  inferInstanceAs (Decidable (_ = _))

theorem Waits.started_eq (h : s.Waits j) : s.started.getD j.index false = false := by
  rw [Array.getD_eq_getD_getElem?, show s.started[j.index]? = some false from h]
  rfl

/-- A body that does not wait has been taken up. -/
theorem started_of_not_waits (hj : j.index < s.started.size)
    (h : ¬ s.Waits j) : s.started.getD j.index false = true := by
  rw [Array.getD_eq_getD_getElem?, Array.getElem?_eq_getElem hj, Option.getD_some]
  by_contra hfalse
  exact h ((Array.getElem?_eq_getElem hj).trans (by simpa using hfalse))

/-- A later state in the same body, with events of this body alone between. -/
structure Follows (s : LoweringState) (i : BodyId) (events : List Event) (s' : LoweringState) :
    Prop where
  own : ∀ e ∈ events, ∀ j, e ≠ .function j
  ledger_eq : s'.ledger = events.foldl (Ledger.apply i) s.ledger
  id_eq : s'.body.id = s.body.id
  inFunction_eq : s'.body.inFunction = s.body.inFunction

namespace Follows

theorem refl (s : LoweringState) : s.Follows i [] s := ⟨by simp, rfl, rfl, rfl⟩

/-- Some events and then others. -/
theorem trans (h : s.Follows i events s1) (h' : s1.Follows i events' s2) :
    s.Follows i (events ++ events') s2 := by
  refine ⟨fun e he => ?_, ?_, h'.id_eq.trans h.id_eq, h'.inFunction_eq.trans h.inFunction_eq⟩
  · exact (mem_append.mp he).elim (h.own e) (h'.own e)
  · rw [h'.ledger_eq, h.ledger_eq, foldl_append]

/-- Nothing more is noted. -/
theorem trans_nil (h : s.Follows i events s1) (h' : s1.Follows i [] s2) :
    s.Follows i events s2 := by
  have := h.trans h'
  rwa [append_nil] at this

/-- Nothing is noted. -/
theorem of_ledger (hl : s1.ledger = s.ledger) (hid : s1.body.id = s.body.id)
    (hin : s1.body.inFunction = s.body.inFunction) : s.Follows i [] s1 := ⟨by simp, hl, hid, hin⟩

/-- Events of the body itself are told. -/
theorem tells (h : s.Follows i events s1) (L : Layout) (config : Config) :
    L.Tells config i s.ledger events s1.ledger := by
  rw [h.ledger_eq]
  exact .of_own h.own

/-- Events of the body itself take up no other body. -/
theorem started_eq (h : s.Follows i events s1) : s1.started = s.started := by
  have hall : ∀ (events : List Event) (a : Ledger),
      (events.foldl (Ledger.apply i) a).started = a.started := by
    intro events
    induction events with
    | nil => intro a; rfl
    | cons e rest ih => intro a; rw [foldl_cons, ih, Ledger.started_apply]
  exact (congrArg Ledger.started h.ledger_eq).trans (hall _ _)

end Follows

end LoweringState

namespace Layout

variable (L : Layout)

/-- The node is in no body that waits. -/
def Clear (s : LoweringState) (q : NodeId) : Prop := ∀ j, s.Waits j → q ∉ L.nodes j

/-- The arena is linked, and bodies that wait are as they were. -/
structure Sound (s : LoweringState) : Prop where
  linked : s.tree.Linked
  acyclic : s.tree.Acyclic
  size_le : L.nodeCount ≤ s.tree.size
  bodies_size : s.program.bodies.size = L.size
  body_eq : ∀ j, (s.program.body j).frozen = (L.program.body j).frozen
  started_size : s.started.size = L.size
  waiting : ∀ j, s.Waits j → s.tree.Stands (.tree (L.root j) (L.rootLabel j) (L.kids j))

/-- When the variables of a body are accessed by their slots: only in functions, and always if it
must be. -/
def slotRules (j : BodyId) (must : Prop) : SlotRules where
  vars := (L.program.body j).vars
  first := L.nodeCount
  may := (L.program.body j).isFunction = true
  must

/-- A body that is lowered: a forest that its statements lower to, with its variables accessed by
their slots unless it needs an activation record. Nodes that it did not have before come from
`first` on. -/
def Done (config : Config) (s : LoweringState) (j : BodyId) (first : Nat) : Prop :=
  ∃ h k events, s.tree.Stands (.tree (L.root j) (L.rootLabel j) k) ∧
    (∀ q ∈ k.ids, q ∈ L.nodes j ∨ first ≤ q.index) ∧
    Lowered (L.site config j) [] .list 0 false (L.kids j) h events ∧
    if (s.program.body j).requiresActivation then k = h
    else ∃ changes cut, Slotted (L.slotRules j ((L.program.body j).isFunction = true)) (L.root j)
      changes cut h k

/-- Between two states, only nodes among `own` have changed and the child list of `p`, apart from
bodies that waited; those of them that wait no longer are done. -/
structure Stretch (config : Config) (i : BodyId) (events : List Event) (own : List NodeId)
    (p : NodeId) (s s' : LoweringState) : Prop where
  sound : L.Sound s'
  size_le : s.tree.size ≤ s'.tree.size
  label_eq : ∀ q, q.index < s.tree.size → q ∉ own → L.Clear s q → s'.tree.label q = s.tree.label q
  children_eq : ∀ q, q.index < s.tree.size → q ∉ own → L.Clear s q → q ≠ p →
    s'.tree.children q = s.tree.children q
  parents : ∀ q c, c.index < s.tree.size → c ∉ own → L.Clear s c → c ∈ s'.tree.children q →
    c ∈ s.tree.children q
  done : ∀ j, s.Waits j → ¬ s'.Waits j → L.Done config s' j s.tree.size
  tells : L.Tells config i s.ledger events s'.ledger
  id_eq : s'.body.id = s.body.id
  inFunction_eq : s'.body.inFunction = s.body.inFunction

variable {L} {s' : LoweringState} {p p1 p2 : NodeId}
  {own own1 own2 : List NodeId} {f : Forest}

/-- Only bodies of the program wait. -/
theorem Sound.waits_lt (h : L.Sound s) (hj : s.Waits j) : j.index < L.size := by
  rw [← h.started_size]
  exact (Array.getElem?_eq_some_iff.mp hj).1

/-- Nodes that lowering has added are in no body that waits. -/
theorem Sound.clear_of_le (h : L.Sound s) (hq : L.nodeCount ≤ q.index) : L.Clear s q := by
  intro j hj hmem
  have := nodes_lt (h.waits_lt hj) hmem
  omega

/-- A clear node stays clear. -/
theorem Clear.mono (h : L.Clear s q) (hw : ∀ j, s'.Waits j → s.Waits j) : L.Clear s' q :=
  fun j hj => h j (hw j hj)

/-- The nodes of a body that does not wait are in no other one that does. -/
theorem Sound.clear_of_mem (h : L.Sound s) (hj : j.index < L.size) (hnot : ¬ s.Waits j)
    (hq : q ∈ L.nodes j) : L.Clear s q := by
  intro k hk
  refine nodes_disjoint hj (h.waits_lt hk) ?_ hq
  rintro rfl
  exact hnot hk

theorem Done.mono {first' : Nat} (h : L.Done config s j first) (hle : first' ≤ first) :
    L.Done config s j first' := by
  obtain ⟨hf, k, events, hst, hids, hrest⟩ := h
  exact ⟨hf, k, events, hst, fun q hq => (hids q hq).imp_right fun h => by omega, hrest⟩

namespace Stretch

theorem waits (h : L.Stretch config i events own p s s') (j : BodyId) (hj : s'.Waits j) :
    s.Waits j := h.tells.waits (a := s.ledger) hj

theorem hasFinally_eq (h : L.Stretch config i events own p s s') :
    s'.body.hasFinally = met s.body.hasFinally events := h.tells.hasFinally_eq

theorem refl (h : L.Sound s) : L.Stretch config i [] own p s s :=
  ⟨h, Nat.le_refl _, fun _ _ _ _ => rfl, fun _ _ _ _ _ => rfl, fun _ _ _ _ _ hc => hc,
    fun _ hj hnot => absurd hj hnot, .nil, rfl, rfl⟩

/-- A spelled forest apart from the work stays spelled. -/
theorem spells (h : L.Stretch config i events own p s s') (hf : s.tree.Spells f)
    (hown : ∀ q ∈ f.ids, q ∉ own ∧ L.Clear s q) (hp : p ∉ f.ids) : s'.tree.Spells f :=
  hf.congr h.size_le fun q hq =>
    ⟨h.label_eq q (hf.bound hq) (hown q hq).1 (hown q hq).2,
      h.children_eq q (hf.bound hq) (hown q hq).1 (hown q hq).2 (by rintro rfl; exact hp hq)⟩

/-- A forest apart from the work stands where it stood. -/
theorem stands (h : L.Stretch config i events own p s s') (hf : s.tree.Stands f)
    (hown : ∀ q ∈ f.ids, q ∉ own ∧ L.Clear s q) (hp : p ∉ f.ids) : s'.tree.Stands f := by
  refine ⟨h.spells hf.1 hown hp, fun r hr q hq => ?_⟩
  have hrf := f.roots_subset_ids hr
  exact hf.2 r hr q (h.parents q r (hf.1.bound hrf) (hown r hrf).1 (hown r hrf).2 hq)

/-- Work in a place is work in a larger place. -/
theorem mono (h : L.Stretch config i events own1 p1 s s') (hown : ∀ q ∈ own1, q ∈ own)
    (hp : p1 = p ∨ p1 ∈ own) : L.Stretch config i events own p s s' :=
  { h with
    label_eq := fun q hq hnot => h.label_eq q hq fun hin => hnot (hown q hin)
    children_eq := fun q hq hnot hc hne => h.children_eq q hq (fun hin => hnot (hown q hin)) hc (by
      rintro rfl
      exact hp.elim hne hnot)
    parents := fun q c hc hnot => h.parents q c hc fun hin => hnot (hown c hin) }

/-- A body that is done stays so. -/
theorem done_of_done (h : L.Stretch config i events own p s s')
    (hd : L.Done config s j first) (hj : j.index < L.size) (hnot : ¬ s.Waits j) (hne : j ≠ i)
    (hs : L.Sound s) (hfirst : L.nodeCount ≤ first)
    (hown : ∀ q ∈ p :: own, q ∉ L.nodes j ∧ ¬ (first ≤ q.index ∧ q.index < s.tree.size)) :
    L.Done config s' j first := by
  obtain ⟨hf, k, evs, hst, hids, hlow, hslots⟩ := hd
  have hids' : ∀ q ∈ (Forest.tree (L.root j) (L.rootLabel j) k).ids,
      q ∈ L.nodes j ∨ first ≤ q.index := by
    intro q hq
    simp only [Forest.ids_cons, Forest.ids_nil, append_nil, mem_cons] at hq
    rcases hq with rfl | hq
    · exact .inl (by simp [nodes])
    · exact hids q hq
  have hout : ∀ q ∈ (Forest.tree (L.root j) (L.rootLabel j) k).ids, q ∉ p :: own := by
    intro q hq hin
    have hb := hst.1.bound hq
    rcases hids' q hq with hmem | hge
    · exact (hown q hin).1 hmem
    · exact (hown q hin).2 ⟨hge, hb⟩
  have hflag : (s'.program.body j).requiresActivation = (s.program.body j).requiresActivation :=
    h.tells.activation_eq hne hnot
  refine ⟨hf, k, evs, ?_, hids, hlow, by rwa [hflag]⟩
  refine h.stands hst (fun q hq => ⟨fun hin => hout q hq (by simp [hin]), ?_⟩) fun hp =>
    hout p hp (by simp)
  rcases hids' q hq with hmem | hge
  · exact hs.clear_of_mem hj hnot hmem
  · exact hs.clear_of_le (by omega)

/-- One stretch after the other. If the first one takes up bodies, the second may not work at nodes
that were made meanwhile. -/
theorem trans (h : L.Stretch config i events own1 p1 s s1)
    (h' : L.Stretch config i events' own2 p2 s1 s2) (hs : L.Sound s) (hi : ¬ s.Waits i)
    (h1 : ∀ q ∈ own1, q ∈ own) (hp1 : p1 = p ∨ p1 ∈ own)
    (h2 : ∀ q ∈ own2, q.index < s.tree.size → q ∈ own)
    (hp2 : p2.index < s.tree.size → p2 = p ∨ p2 ∈ own) (hclear : ∀ q ∈ p2 :: own2, L.Clear s q)
    (hnew : (∀ j, s.Waits j → s1.Waits j) ∨ ∀ q ∈ p2 :: own2, q.index < s.tree.size) :
    L.Stretch config i (events ++ events') own p s s2 := by
  have hle := h.size_le
  have hcl : ∀ q, L.Clear s q → L.Clear s1 q := fun q hq => hq.mono h.waits
  refine ⟨h'.sound, Nat.le_trans hle h'.size_le, fun q hq hnot hc => ?_, fun q hq hnot hc hne => ?_,
    fun q c hc hnot hcl' hmem => ?_, fun j hj hnot => ?_, h.tells.append h'.tells,
    h'.id_eq.trans h.id_eq, h'.inFunction_eq.trans h.inFunction_eq⟩
  · rw [h'.label_eq q (by omega) (fun hin => hnot (h2 q hin hq)) (hcl q hc),
      h.label_eq q hq (fun hin => hnot (h1 q hin)) hc]
  · rw [h'.children_eq q (by omega) (fun hin => hnot (h2 q hin hq)) (hcl q hc) ?_,
      h.children_eq q hq (fun hin => hnot (h1 q hin)) hc ?_]
    · rintro rfl
      exact hp1.elim hne hnot
    · rintro rfl
      exact (hp2 hq).elim hne hnot
  · exact h.parents q c hc (fun hin => hnot (h1 c hin)) hcl'
      (h'.parents q c (by omega) (fun hin => hnot (h2 c hin hc)) (hcl c hcl') hmem)
  · by_cases hj1 : s1.Waits j
    · exact (h'.done j hj1 hnot).mono hle
    · have hne : j ≠ i := by
        rintro rfl
        exact hi hj
      refine h'.done_of_done (h.done j hj hj1) (hs.waits_lt hj) hj1 hne h.sound hs.size_le
        fun q hq => ⟨hclear q hq j hj, fun hge => ?_⟩
      rcases hnew with hnew | hnew
      · exact hj1 (hnew j hj)
      · have := hnew q hq
        omega

/-- Edits at nodes of the current body. -/
theorem of_edits (hs : L.Sound s) (he : s.tree.Edits own p s'.tree)
    (hclear : ∀ q ∈ p :: own, L.Clear s q) (hf : s.Follows i events s') :
    L.Stretch config i events own p s s' := by
  have htells := hf.tells L config
  have hw : ∀ j, s'.Waits j ↔ s.Waits j := fun j => by
    rw [LoweringState.Waits, hf.started_eq]
    rfl
  refine ⟨⟨he.linked, he.acyclic hs.acyclic, Nat.le_trans hs.size_le he.size_le,
    htells.size_eq.trans hs.bodies_size,
    fun j => (htells.frozen_eq j).trans (hs.body_eq j), by rw [hf.started_eq, hs.started_size],
    fun j hj => ?_⟩,
    he.size_le, fun q hq hnot _ => he.label_eq q hq hnot,
    fun q hq hnot _ hne => he.children_eq q hq hnot hne,
    fun q c hc hnot _ => he.parents q c hc hnot,
    fun j hj hnot => absurd ((hw j).mpr hj) hnot, htells, hf.id_eq, hf.inFunction_eq⟩
  have hout : ∀ q ∈ (Forest.tree (L.root j) (L.rootLabel j) (L.kids j)).ids, q ∉ p :: own := by
    intro q hq hin
    rw [← nodes_eq] at hq
    exact hclear q hin j ((hw j).mp hj) hq
  exact he.stands (hs.waiting j ((hw j).mp hj)) (fun q hq hin => hout q hq (by simp [hin]))
    fun hp => hout p hp (by simp)

end Stretch

/-! ## How much waits -/

variable (L) in
/-- The nodes of the bodies that wait. -/
def pending (s : LoweringState) : Nat :=
  ∑ i ∈ Finset.range L.size, if s.Waits ⟨i⟩ then (L.kids ⟨i⟩).count + 1 else 0

/-- Less waits if fewer bodies do. -/
theorem pending_mono (h : ∀ j, s'.Waits j → s.Waits j) : L.pending s' ≤ L.pending s := by
  refine Finset.sum_le_sum fun i _ => ?_
  split
  · next hi => rw [if_pos (h _ hi)]
  · exact Nat.zero_le _

/-- Taking up a body pays for its nodes. -/
theorem pending_start (hj : s.Waits j) (hlt : j.index < L.size) (h : ∀ k, s'.Waits k → s.Waits k)
    (hnot : ¬ s'.Waits j) : L.pending s' + ((L.kids j).count + 1) ≤ L.pending s := by
  have hone : (L.kids j).count + 1 =
      ∑ i ∈ Finset.range L.size, if i = j.index then (L.kids ⟨i⟩).count + 1 else 0 := by
    rw [Finset.sum_ite_eq']
    simp [hlt]
  rw [hone, pending, ← Finset.sum_add_distrib]
  refine Finset.sum_le_sum fun i _ => ?_
  by_cases hi : i = j.index
  · subst hi
    rw [if_neg hnot, if_pos rfl, if_pos hj, Nat.zero_add]
  · rw [if_neg hi, Nat.add_zero]
    split
    · next hw => rw [if_pos (h _ hw)]
    · exact Nat.zero_le _

/-- No more waits than there are nodes. -/
theorem pending_le (s : LoweringState) : L.pending s ≤ L.nodeCount := by
  refine Nat.le_trans (Finset.sum_le_sum fun i _ => ?_) sum_count_le
  split
  · exact Nat.le_refl _
  · exact Nat.zero_le _

end Layout

end ScriptEngine
