import ScriptEngine.Proofs.CodeFlow
import ScriptEngine.Proofs.VariableTables

/-!
# Trees that code is written from

What the nodes of a lowered body carry: the data of their kinds, slots within the variables of the
body, and regular expressions within its list. Together with `Forest.Flows` this is all that writing
the code asks for.
-/

namespace ScriptEngine

open Forest Node

variable {limits : Limits} {l : Node} {kids h : Forest} {a : Attrs} {key : AttrKey} {w : Nat}
  {back : NodeId}

/-- Kinds that lowering leaves, whatever is below them. -/
def Token.isSettled : Token → Bool
  | .breakStmt | .continueStmt | .var | .exprStmt | .label => false
  | _ => true

/-- A node that needs no more lowering, over what is below it. -/
def Node.Normal (l : Node) (kids : Forest) : Prop :=
  l.kind.isSettled ∨ l.kind = .label ∧ kids = .nil

/-- A node that lowering leaves: no slots yet, and a variable is deleted by its name alone. -/
structure Node.Ready (limits : Limits) (l : Node) (kids : Forest) : Prop where
  bears : l.Bears limits.regexps
  normal : l.Normal kids
  no_getVar : l.kind ≠ .getVar
  no_setVar : l.kind ≠ .setVar
  deletes : l.kind = .delProp → ∀ bind lb below more, kids = .cons bind lb below more →
    lb.kind = .bindName → below = .nil ∧ ∃ key lk, more = .leaf key lk ∧ lk.kind = .string

/-- A node that code is written from. -/
structure Node.Coded (limits : Limits) (slots : Nat) (l : Node) : Prop where
  carries : l.kind.Carries l.payload
  regExp : l.kind = .regExp →
    ∃ i : Nat, l.attrs.get? .regExpIndex = some (.int i) ∧ i < limits.regexps
  slot : l.kind = .getVar ∨ l.kind = .setVar →
    ∃ i : Nat, l.attrs.get? .varIndex = some (.int i) ∧ i < slots

/-! ## Lowered nodes -/

/-- Kinds of the nodes that lowering makes. -/
def Token.isMade : Token → Bool
  | .target | .block | .popv | .pop | .returnPopv | .leaveWith | .jsr | .setName => true
  | _ => false

/-- Kinds of nodes that are ready, whatever is below them. -/
def Token.isReady (kind : Token) : Bool :=
  kind.isSettled && kind ∉ [Token.getVar, .setVar, .delProp]

namespace Node

private theorem Bears.ready {kind : Token} (h : l.Bears limits.regexps) (hkind : l.kind = kind)
    (hready : kind.isReady) : l.Ready limits kids := by
  subst hkind
  simp only [Token.isReady, List.mem_cons, List.not_mem_nil, or_false, not_or, Bool.and_eq_true,
    decide_eq_true_eq] at hready
  obtain ⟨hsettled, hget, hset, hdel⟩ := hready
  exact ⟨h, .inl hsettled, hget, hset, fun hk => absurd hk hdel⟩

/-- A node that lowering makes carries nothing. -/
theorem ready_of_isMade (hkind : l.kind.isMade) (hpayload : l.payload = .none)
    (hattrs : l.attrs = ⟨[]⟩) : l.Ready limits kids := by
  have hready : l.kind.isReady := by
    revert hkind
    cases l.kind <;> first | exact fun _ => rfl | exact nofun
  refine Bears.ready ⟨?_, fun hk => ?_, by rw [hattrs]; rfl⟩ rfl hready
  · rw [hpayload]
    unfold Token.Carries
    split <;> simp_all [Token.isMade]
  · rw [hk] at hkind
    cases hkind

/-- A node that keeps its place and its children. -/
theorem isReady_lowered (inFunction : Bool) (hkind : l.kind.isKept) (hdelete : l.kind ≠ .delProp) :
    (l.lowered inFunction kids).kind.isReady := by
  rw [kind_lowered]
  split
  · cases inFunction <;> rfl
  · next hne =>
    revert hkind hdelete hne
    cases l.kind <;> first | exact fun _ _ _ => rfl | exact nofun

end Node

private theorem Attrs.get?_insert_ne {other : AttrKey} (value : AttrValue)
    (hne : other ≠ key) : (a.insert key value).get? other = a.get? other := by
  unfold insert
  split
  · simp only [get?]
    induction a.entries with
    | nil => rfl
    | cons e rest ih =>
      obtain ⟨k, v⟩ := e
      by_cases hk : k = key
      · subst hk
        simp only [List.map_cons, if_true, List.lookup_cons, beq_eq_false_iff_ne.mpr hne, ih]
      · simp only [List.map_cons, if_neg hk, List.lookup_cons, ih]
  · simp only [get?]
    induction a.entries with
    | nil => simp [List.lookup_cons, beq_eq_false_iff_ne.mpr hne]
    | cons e rest ih =>
      obtain ⟨k, v⟩ := e
      simp only [List.cons_append, List.lookup_cons, ih]

/-- An attribute that was free can be read where it is inserted. -/
theorem Attrs.get?_insert_self (value : AttrValue)
    (hfree : a.get? key = none) : (a.insert key value).get? key = some value := by
  unfold insert
  rw [hfree]
  simp only [Option.isSome_none, Bool.false_eq_true, if_false]
  obtain ⟨entries⟩ := a
  simp only [get?] at hfree ⊢
  induction entries with
  | nil => simp
  | cons e rest ih =>
    obtain ⟨k, v⟩ := e
    simp only [List.cons_append, List.lookup_cons] at hfree ⊢
    split at hfree
    · cases hfree
    · exact ih hfree

namespace Lowered

variable {site : Site} {scopes : List Scope} {form : Form} {past : Bool} {f : Forest}
  {events : List Event}

private theorem bears_lowered (h : l.Bears limits.regexps) :
    (l.lowered site.inFunction kids).Bears limits.regexps := by
  unfold lowered
  split
  · next hk =>
    have hnone : l.payload = .none := by simpa [hk, Token.Carries] using h.carries
    refine ⟨?_, ?_, ?_⟩
    · cases site.inFunction <;> simp [withKind, Token.Carries, hnone]
    · cases site.inFunction <;> simp [withKind]
    · exact h.no_slot
  · split
    · exact ⟨h.carries, fun hk => by simp_all [withAttr],
        (Attrs.get?_insert_ne _ (by simp)).trans h.no_slot⟩
    · exact h
  · split
    · exact ⟨h.carries, fun hk => by simp_all [withAttr],
        (Attrs.get?_insert_ne _ (by simp)).trans h.no_slot⟩
    · exact h
  · exact h

/-- What becomes of a jump carries nothing. -/
theorem ready_jump {n : Node} (hkind : l.kind = .breakStmt ∨ l.kind = .continueStmt)
    (h : l.Bears limits.regexps) (hn : n.kind = .goto ∨ n.kind = .nop)
    (hpayload : n.payload = l.payload) (hattrs : n.attrs = l.attrs) : n.Ready limits kids := by
  have hnone : n.payload = .none := by
    rw [hpayload]
    rcases hkind with hk | hk <;> simpa [hk, Token.Carries] using h.carries
  rcases hn with hk | hk <;>
    exact Node.Bears.ready ⟨by simp [hk, Token.Carries, hnone], by simp [hk],
      hattrs ▸ h.no_slot⟩ hk rfl

/-- Steps out of scopes carry nothing. -/
theorem ready_leaves {steps : List (NodeId × Node)} {E : List Scope}
    (hsteps : steps.map Prod.snd = E.filterMap Scope.step?) :
    (Forest.leaves steps).All (Node.Ready limits) := by
  have hscopes : ∀ step ∈ steps, ∃ scope : Scope, scope.step? = some step.2 := fun step hstep => by
    obtain ⟨scope, -, hscope⟩ := List.mem_filterMap.mp (hsteps ▸ List.mem_map_of_mem hstep)
    exact ⟨scope, hscope⟩
  clear hsteps
  induction steps with
  | nil => trivial
  | cons step steps ih =>
    refine ⟨?_, trivial, ih fun other hother => hscopes other (by simp [hother])⟩
    obtain ⟨scope, hscope⟩ := hscopes step (by simp)
    cases scope <;> simp only [Scope.step?, Option.some.injEq, reduceCtorEq] at hscope <;>
      exact hscope ▸ ready_of_isMade rfl rfl rfl

private theorem ready_labels {stop : NodeId} {continueTo : Option NodeId} {inner : List Scope}
    {labels : List LabelNode} {front : Forest}
    (hopen : LabelsOpen stop continueTo scopes labels inner front events)
    (hfits : (labelForest labels).All fun l _ => l.Fits limits) :
    front.All (Node.Ready limits) := by
  have hlabel {a : LabelNode} {n : Node} (hfits : a.node.Fits limits) (hkind : n.kind = a.node.kind)
      (hpayload : n.payload = a.node.payload) (hattrs : n.attrs = a.node.attrs) :
      n.Ready limits .nil := by
    have hcarries := hfits.carries
    rw [a.kind_eq] at hkind hcarries
    exact ⟨⟨hkind ▸ hpayload ▸ hcarries, by simp [hkind], hattrs ▸ hfits.no_slot⟩,
      .inr ⟨hkind, rfl⟩, by simp [hkind], by simp [hkind], by simp [hkind]⟩
  induction hopen with
  | nil => trivial
  | repeated _ _ ih | fresh _ _ _ ih =>
    exact ⟨hlabel hfits.1 rfl rfl rfl, trivial, ih hfits.2.2⟩

/-- The nodes of lowered forests are ready for slots. -/
theorem ready (hlow : Lowered site scopes form w past f h events)
    (hfits : f.All fun l _ => l.Fits limits) : h.All (Node.Ready limits) := by
  induction hlow with
  | @plain E w past id l kids h events hkind _ hdelete _ ih =>
    refine ⟨?_, ih hfits.2.1, trivial⟩
    by_cases hk : l.kind = .delProp
    · have hsame : l.lowered site.inFunction kids = l := by simp [lowered, hk]
      rw [hsame]
      refine ⟨hfits.1.bears, .inl (hk ▸ rfl), by simp [hk], by simp [hk], ?_⟩
      rintro - bind lb below more rfl hbind
      exact absurd hbind (by simpa [bindsName] using (hdelete hk).2)
    · exact (bears_lowered hfits.1.bears).ready rfl (isReady_lowered _ hkind hk)
  | function hkind => exact ⟨hfits.1.bears.ready hkind rfl, trivial, trivial⟩
  | deleteName hkind hbind hkey =>
    refine ⟨⟨hfits.1.bears, .inl (hkind ▸ rfl), by simp [hkind], by simp [hkind], ?_⟩,
      ⟨hfits.2.1.1.bears.ready hbind rfl, trivial, hfits.2.1.2.2.1.bears.ready hkey rfl, trivial,
        trivial⟩, trivial⟩
    rintro - bind lb below more ⟨⟩ -
    exact ⟨rfl, _, _, rfl, hkey⟩
  -- A variable statement becomes a block of assignments.
  | var _ _ _ _ ih => exact ⟨ready_of_isMade rfl rfl rfl, ih hfits.2.1, trivial⟩
  | @ret E _ past _ _ _ hkind _ hsteps _ =>
    refine all_append.mpr ⟨?_, hfits.1.bears.ready hkind rfl, trivial, trivial⟩
    cases past with
    | true => exact ready_leaves hsteps
    | false => exact ready_leaves (E := []) hsteps
  | retValue hkind _ _ _ ih => exact ⟨hfits.1.bears.ready hkind rfl, ih hfits.2.1, trivial⟩
  | retLater _ _ _ _ hsteps _ _ _ _ ih =>
    exact ⟨ready_of_isMade rfl rfl rfl, ⟨ready_of_isMade rfl rfl rfl, ih hfits.2.1,
      all_append.mpr ⟨ready_leaves hsteps, ready_of_isMade rfl rfl rfl, trivial,
        trivial⟩⟩, trivial⟩
  -- A jump with a destination becomes a branch, one without becomes nothing.
  | jump hkind _ _ _ _ _ _ hsteps _ =>
    exact all_append.mpr ⟨ready_leaves hsteps,
      ready_jump hkind hfits.1.bears (.inl rfl) rfl rfl, trivial, trivial⟩
  | lost hkind => exact ⟨ready_jump hkind hfits.1.bears (.inr rfl) rfl rfl, trivial, trivial⟩
  | switch hkind _ _ _ _ ihs ihc =>
    have hboth := all_append.mp hfits.2.1
    have hbears := hfits.1.bears
    exact ⟨Node.Bears.ready ⟨hbears.carries, hbears.regExp, hbears.no_slot⟩ hkind rfl, ihs hboth.1,
      all_append.mpr ⟨ihc hboth.2, ready_of_isMade rfl rfl rfl, trivial, trivial⟩⟩
  | loop hkind _ _ _ _ _ hstop _ ih =>
    have hboth := all_append.mp hfits.2.1
    exact ⟨hfits.1.bears.ready hkind rfl, all_append.mpr ⟨ih hboth.1,
      hboth.2.1.bears.ready hstop rfl, trivial, trivial⟩, trivial⟩
  | tryCatch hkind _ _ _ ih => exact ⟨hfits.1.bears.ready hkind rfl, ih hfits.2.1, trivial⟩
  | tryFinally hkind _ _ _ hentry _ _ hback hstop _ ihg ihf =>
    obtain ⟨hguarded, hin, -, hrest⟩ := all_append.mp hfits.2.1
    obtain ⟨hfinal, hout, -, hend, -⟩ := all_append.mp hrest
    exact ⟨hfits.1.bears.ready hkind rfl, all_append.mpr ⟨ihg hguarded,
      hin.bears.ready hentry rfl, trivial, all_append.mpr ⟨ihf hfinal,
        hout.bears.ready hback rfl, trivial, hend.bears.ready hstop rfl, trivial,
        trivial⟩⟩, trivial⟩
  | nil | declNil => trivial
  | target hkind _ _ ih => exact ⟨hfits.1.bears.ready hkind rfl, trivial, ih hfits.2.2⟩
  | labelled hopen _ _ _ iho ihr =>
    obtain ⟨hlabels, hone, hkids, hrest⟩ := all_append.mp hfits
    refine all_append.mpr ⟨ready_labels hopen hlabels, all_append.mpr
      ⟨iho ⟨hone, hkids, trivial⟩, all_append.mpr ⟨?_, ihr hrest⟩⟩⟩
    split
    · trivial
    · exact ⟨ready_of_isMade rfl rfl rfl, trivial, trivial⟩
  | withScope henter _ hinner _ hleave _ iho ihb ihr =>
    obtain ⟨hfe, hfo, hfi, hfb, hfl, -, hfr⟩ := hfits
    exact ⟨hfe.bears.ready henter rfl, iho hfo, hfi.bears.ready hinner rfl, ihb hfb,
      hfl.bears.ready hleave rfl, trivial, ihr hfr⟩
  | exit hleave hskip _ _ _ ih =>
    obtain ⟨hfl, -, hfs, -, hfr⟩ := hfits
    exact ⟨hfl.bears.ready hleave rfl, trivial, hfs.bears.ready hskip rfl, trivial, ih hfr⟩
  -- Only declarations with a value leave something, an assignment whose result is dropped.
  | decl _ _ ih => exact ih hfits.2.2
  | declInit hkind _ _ _ _ ihi ihr =>
    refine ⟨ready_of_isMade rfl rfl rfl, ⟨ready_of_isMade rfl rfl rfl, ⟨?_, trivial,
      ihi hfits.2.1⟩, trivial⟩, ihr hfits.2.2⟩
    refine Node.Bears.ready ⟨?_, by simp [withKind], hfits.1.no_slot⟩ rfl rfl
    simpa [hkind, Token.Carries, withKind] using hfits.1.carries

end Lowered

/-! ## Accesses by slot -/

namespace Slotted

variable {rules : SlotRules} {p : NodeId} {changes : List SlotChange} {cut k : Forest}
  {depths : Depths} {w' : Nat}

/-- Nothing stays nothing. -/
theorem kids_nil {kids' : Forest} (hs : Slotted rules p changes cut .nil kids') : kids' = .nil :=
  hs.nil_inv.2.2

variable (hs : Slotted rules p changes cut h k)

include hs

/-- Targets keep their depths. -/
theorem marks (hready : h.All (Node.Ready limits))
    {target : NodeId} {depth : Nat} (hmark : h.Marks w target depth) : k.Marks w target depth := by
  induction hs generalizing w with
  | nil => exact hmark
  | keep _ _ _ ihk ihr =>
    exact hmark.imp_right (Or.imp (ihk hready.2.1) (ihr hready.2.2))
  | getVar _ hkind _ _ _ ih =>
    simp only [marks_cons, hkind, reduceCtorEq, false_and, false_or, marks_nil] at hmark
    exact .inr (.inr (ih hready.2.2 hmark))
  | setVar _ hkind _ hbind _ _ _ ihv ihr =>
    simp only [marks_cons, hkind, hbind, reduceCtorEq, false_and, false_or, marks_nil,
      if_false] at hmark
    rcases hmark with hmark | hmark
    · exact .inr (.inl (.inr (.inr (ihv hready.2.1.2.2 hmark))))
    · exact .inr (.inr (ihr hready.2.2 hmark))
  | deleted _ hkind hbind _ _ _ ih =>
    obtain ⟨-, key, lk, rfl, hkey⟩ := hready.1.deletes hkind _ _ _ _ rfl hbind
    simp only [marks_cons, hkind, hbind, hkey, reduceCtorEq, false_and, false_or,
      marks_nil, if_false] at hmark
    exact .inr (.inr (ih hready.2.2 hmark))

/-- The kinds of siblings that end finally blocks are kept. -/
theorem hasRoot (hroot : h.HasRoot .retsub back) : k.HasRoot .retsub back := by
  induction hs with
  | nil => exact hroot
  | keep _ _ _ _ ihr => exact hroot.imp_right ihr
  | getVar _ hkind _ _ _ ih => exact .inr (ih (hroot.resolve_left (by simp [hkind])))
  | setVar _ hkind _ _ _ _ _ _ ihr => exact .inr (ihr (hroot.resolve_left (by simp [hkind])))
  | deleted _ hkind _ _ _ _ ih => exact .inr (ih (hroot.resolve_left (by simp [hkind])))

/-- Finally blocks stay. -/
theorem subroutine (hready : h.All (Node.Ready limits))
    {entry : NodeId} (hsub : h.Subroutine entry back) : k.Subroutine entry back := by
  induction hs with
  | nil => exact hsub
  | keep _ hkids _ ihk ihr =>
    exact hsub.imp (And.imp_right hkids.hasRoot) (Or.imp (ihk hready.2.1) (ihr hready.2.2))
  | @getVar p id l _ _ _ _ _ _ hkind _ _ _ ih =>
    have hnone : l.finallyTarget? = none := finallyTarget?_eq_none (by simp [hkind])
    simp only [Forest.Subroutine, hnone, reduceCtorEq, false_and, false_or] at hsub
    exact .inr (.inr (ih hready.2.2 hsub))
  | @setVar p id l bind lb _ _ _ _ _ _ _ _ _ _ hkind _ hbind _ _ _ ihv ihr =>
    have hnone : l.finallyTarget? = none := finallyTarget?_eq_none (by simp [hkind])
    have hnone' : lb.finallyTarget? = none := finallyTarget?_eq_none (by simp [hbind])
    simp only [Forest.Subroutine, hnone, hnone', reduceCtorEq, false_and, false_or] at hsub
    rcases hsub with hsub | hsub
    · exact .inr (.inl (.inr (.inr (ihv hready.2.1.2.2 hsub))))
    · exact .inr (.inr (ihr hready.2.2 hsub))
  | @deleted p id l bind lb _ _ _ _ _ _ _ _ hkind hbind _ _ _ ih =>
    obtain ⟨-, key, lk, rfl, hkey⟩ := hready.1.deletes hkind _ _ _ _ rfl hbind
    have hnone : l.finallyTarget? = none := finallyTarget?_eq_none (by simp [hkind])
    have hnone' : lb.finallyTarget? = none := finallyTarget?_eq_none (by simp [hbind])
    have hnone'' : lk.finallyTarget? = none := finallyTarget?_eq_none (by simp [hkey])
    simp only [Forest.Subroutine, hnone, hnone', hnone'', reduceCtorEq, false_and, false_or] at hsub
    exact .inr (.inr (ih hready.2.2 hsub))

/-- Accesses by slot do not matter for the depth. -/
theorem flows (hready : h.All (Node.Ready limits))
    (hflow : h.Flows depths w w') : k.Flows depths w w' := by
  induction hs generalizing w w' with
  | nil => exact hflow
  | keep _ hkids _ ihk ihr =>
    obtain ⟨hleaf, u, v, hfk, hstep, hfr⟩ := hflow
    refine ⟨fun hkind => ?_, u, v, ihk hready.2.1 hfk, hstep, ihr hready.2.2 hfr⟩
    rw [hleaf hkind] at hkids
    exact hkids.kids_nil
  | getVar _ hkind _ _ _ ih =>
    obtain ⟨-, u, v, hu, hstep, hfr⟩ := hflow
    obtain rfl : w = u := hu
    obtain rfl : w = v := by simpa [Node.Steps, hkind] using hstep
    exact .leaf (steps_flat rfl) (ih hready.2.2 hfr)
  | setVar _ hkind _ hbind _ _ _ ihv ihr =>
    obtain ⟨-, u, v, ⟨-, a, b, ha, hstep', hfv⟩, hstep, hfr⟩ := hflow
    obtain rfl : w = a := ha
    obtain rfl : w = b := by simpa [Node.Steps, hbind] using hstep'
    obtain rfl : u = v := by simpa [Node.Steps, hkind] using hstep
    exact .flat rfl (.leaf (steps_flat rfl) (ihv hready.2.1.2.2 hfv)) (ihr hready.2.2 hfr)
  | deleted _ hkind hbind _ _ _ ih =>
    obtain ⟨-, key, lk, rfl, hkey⟩ := hready.1.deletes hkind _ _ _ _ rfl hbind
    obtain ⟨-, u, v, ⟨-, a, b, ha, hstep', -, c, d, hc, hstep'', hd⟩, hstep, hfr⟩ := hflow
    obtain rfl : w = a := ha
    obtain rfl : w = b := by simpa [Node.Steps, hbind] using hstep'
    obtain rfl : w = c := hc
    obtain rfl : w = d := by simpa [Node.Steps, hkey] using hstep''
    obtain rfl : w = u := hd
    obtain rfl : w = v := by simpa [Node.Steps, hkind] using hstep
    exact .leaf (steps_flat rfl) (ih hready.2.2 hfr)

/-- What the nodes carry after lowering. -/
theorem coded (hready : h.All (Node.Ready limits)) :
    k.All fun l _ => l.Coded limits rules.vars.size := by
  have hcoded {l : Node} {kids : Forest} (hl : l.Ready limits kids) :
      l.Coded limits rules.vars.size :=
    ⟨hl.bears.carries, hl.bears.regExp, fun hk => (hk.elim hl.no_getVar hl.no_setVar).elim⟩
  induction hs with
  | nil => trivial
  | keep _ _ _ ihk ihr => exact ⟨hcoded hready.1, ihk hready.2.1, ihr hready.2.2⟩
  | @getVar p id l slot _ _ _ _ _ hkind hfree hslot _ ih =>
    refine ⟨⟨?_, fun hk => (by cases hk), fun _ => ⟨slot, Attrs.get?_insert_self _ hfree,
      VariableTable.get?_lt hslot⟩⟩, trivial, ih hready.2.2⟩
    simpa [hkind, Token.Carries, withKind, withAttr] using hready.1.bears.carries
  | @setVar p id l bind lb slot _ _ _ _ _ _ _ _ _ hkind hfree hbind hslot _ _ ihv ihr =>
    refine ⟨⟨?_, fun hk => (by cases hk), fun _ => ⟨slot, Attrs.get?_insert_self _ hfree,
      VariableTable.get?_lt hslot⟩⟩, ⟨⟨?_, fun hk => (by cases hk),
        fun hk => (by rcases hk with hk | hk <;> cases hk)⟩,
        trivial, ihv hready.2.1.2.2⟩, ihr hready.2.2⟩
    · simpa [hkind, Token.Carries, withKind, withAttr] using hready.1.bears.carries
    · simpa [hbind, Token.Carries, withKind] using hready.2.1.1.bears.carries
  | deleted _ _ _ _ _ _ ih =>
    exact ⟨⟨rfl, fun hk => (by cases hk),
        fun hk => (by rcases hk with hk | hk <;> cases hk)⟩, trivial,
      ih hready.2.2⟩

end Slotted

/-- The depths of a forest's own targets, and the ends of finally blocks at the depths of their
beginnings. -/
def Forest.depths (f : Forest) : Depths where
  target := f.Marks 0
  back back depth := ∃ entry, f.Subroutine entry back ∧ f.Marks 0 entry depth

namespace Layout

variable {L : Layout} {config : Config} {s : LoweringState} {j : BodyId} {first : Nat}

/-- A lowered body is fit for code. -/
theorem Done.coded (hs : L.Sound s) (hd : L.Done config s j first) :
    (s.program.statements j).All
    (fun l _ => l.Coded (L.program.limits j) (L.program.body j).vars.size) ∧
      (s.program.statements j).Flows (s.program.statements j).depths 0 0 := by
  obtain ⟨h, events, changes, cut, hlow, hslotted⟩ := hd.exists_slotted hs
  have hready : h.All (Node.Ready (L.program.limits j)) := hlow.ready (L.fits j)
  have hwithin : h.Within (s.program.statements j).depths 0 :=
    ⟨fun t d hm => hslotted.marks hready hm,
      fun e r d hsub hm => ⟨e, hslotted.subroutine hready hsub, hm⟩⟩
  have hflow := hlow.flows (fun t d hm => hwithin.target t d (hlow.marks hm)) hwithin (.inr trivial)
  exact ⟨hs.vars_eq j ▸ hslotted.coded hready, hslotted.flows hready hflow⟩

end Layout

end ScriptEngine
