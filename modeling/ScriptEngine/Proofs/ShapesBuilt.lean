import ScriptEngine.Proofs.Placement
import ScriptEngine.Syntax.Shape

/-!
# Shapes of expressions

A shape of the language takes pieces by their roots and makes another one of them. `Parts` says what
is known of such pieces: that they are an expression, a statement, a block and so on.
`Crafts P m Q` says that a computation uses up the parts `P` and leaves the parts `Q`. All other
pieces on the workbench are kept.
-/

namespace ScriptEngine

open Forest

variable {α : Type} {la lb l : Node} {ka kb kids f g : Forest} {limits limits' : Limits}
  {id : NodeId} {t t0 : Tree} {used : List NodeId} {kind : Token} {form : Form}

private theorem NodeData.ofKind_ne_function (kind : Token) (k : BodyId) :
    NodeData.ofKind kind ≠ .function k := by
  rw [NodeData.ofKind]
  split
  · simp
  · split <;> simp

private theorem Node.Fits.withKind (h : l.Fits limits) {k : Token} (hcarries : k.Carries l.payload)
    (hne : k ≠ .regExp) : (l.withKind k).Fits limits where
  carries := hcarries
  regExp hk := absurd hk hne
  no_slot := h.no_slot
  function j hj := by
    by_cases hdata : l.data = .none
    · exact absurd ((if_pos hdata).symm.trans hj) (NodeData.ofKind_ne_function k j)
    · exact h.function j ((if_neg hdata).symm.trans hj)

/-- Kinds that only carry their operands. -/
structure Token.IsOperator (kind : Token) : Prop where
  bare : kind.isBare
  not_branch : kind.isBranch = false
  carries : kind.Carries .none
  ne_regExp : kind ≠ .regExp
  operand : kind.isOperand

/-- A node over operands, one itself. -/
structure Node.Operates (limits : Limits) (l : Node) : Prop where
  bare : l.kind.isBare
  not_branch : l.kind.isBranch = false
  operand : l.kind.isOperand
  fits : l.Fits limits

/-- A fresh operator carries nothing. -/
theorem Token.IsOperator.operates (hkind : l.kind.IsOperator) (hp : l.payload = .none)
    (hs : l.attrs.get? .varIndex = none) (hd : l.data = .ofKind l.kind) : l.Operates limits where
  bare := hkind.bare
  not_branch := hkind.not_branch
  operand := hkind.operand
  fits := ⟨hp ▸ hkind.carries, fun he => absurd he hkind.ne_regExp, hs,
    fun k hk => absurd (hd.symm.trans hk) (NodeData.ofKind_ne_function _ k)⟩

namespace Forest

/-! ## Operands -/

/-- Operands, wherever they stand. -/
structure Values (limits : Limits) (form : Form) (f : Forest) : Prop where
  free : f.IsJumpFree form
  placed : f.Placed limits Token.isOperand Token.isOperand

namespace Values

/-- Wider limits. -/
theorem mono (h : f.Values limits form) (hle : limits ≤ limits') : f.Values limits' form :=
  ⟨h.free, h.placed.mono hle⟩

theorem nil : Forest.nil.Values limits .list := ⟨fun _ _ => .nil, trivial⟩

theorem list (h : f.Values limits .one) : f.Values limits .list :=
  ⟨fun w marks => (h.free w marks).list_of_one, h.placed⟩

theorem append (hf : f.Values limits .list) (hg : g.Values limits .list) :
    (f ++ g).Values limits .list :=
  ⟨fun w marks => (hf.free w marks).append (hg.free w marks),
    placed_append.mpr ⟨hf.placed, hg.placed⟩⟩

/-- An operation on values is a value. -/
theorem operation (h : f.Values limits .list) (hl : l.Operates limits) :
    (Forest.tree id l f).Values limits .one :=
  ⟨fun w marks => .plain hl.bare (by simp [hl.not_branch]) (h.free w marks),
    h.placed.operand hl.operand hl.fits⟩

private theorem name (hkind : l.kind = .name) (hfits : l.Fits limits) :
    (Forest.leaf id l).Values limits .one :=
  ⟨fun _ _ => .name hkind, .leaf (by rw [hkind]; rfl) hfits⟩

private theorem access (hf : f.Values limits .one) (hg : g.Values limits .one)
    (hkind : kind = .getProp ∨ kind = .getElem) :
    (Forest.tree id (.ofKind kind) (f ++ g)).Values limits .one := by
  refine ⟨fun w marks => .access hkind (hf.free w marks) (hg.free w marks), ?_⟩
  have hkids := placed_append.mpr ⟨hf.placed, hg.placed⟩
  rcases hkind with rfl | rfl <;> exact hkids.operand rfl (.blank rfl)

/-- The parts of an access. -/
theorem access_parts (h : (Forest.tree id l kids).Values limits .one)
    (hkind : l.kind = .getProp ∨ l.kind = .getElem) :
    ∃ a la ka b lb kb, kids = .tree a la ka ++ .tree b lb kb ∧
      (Forest.tree a la ka).Values limits .one ∧ (Forest.tree b lb kb).Values limits .one := by
  have hinv : ∀ w marks, ∃ object key, kids = object ++ key ∧
      Built marks .one w object ∧ Built marks .one w key := by
    intro w marks
    cases h.free w marks with
    | access _ ho hk => exact ⟨_, _, rfl, ho, hk⟩
    | plain hplain =>
      rcases hkind with he | he <;> rw [he] at hplain <;> exact absurd hplain (by decide)
    | jump hk => rcases hkind with he | he <;> rw [he] at hk <;> exact absurd hk (by decide)
    | _ => grind
  obtain ⟨object, key, rfl, ho, hk⟩ := hinv 0 fun _ _ => True
  obtain ⟨a, la, ka, rfl⟩ := ho.one_eq_tree
  obtain ⟨b, lb, kb, rfl⟩ := hk.one_eq_tree
  have hboth : ∀ w marks, Built marks .one w (.tree a la ka) ∧
      Built marks .one w (.tree b lb kb) := by
    intro w marks
    obtain ⟨object', key', heq, ho', hk'⟩ := hinv w marks
    obtain ⟨a', la', ka', rfl⟩ := ho'.one_eq_tree
    simp only [cons_append, nil_append, Forest.cons.injEq] at heq
    obtain ⟨rfl, rfl, rfl, rfl⟩ := heq
    exact ⟨ho', hk'⟩
  have hkids := h.placed.2.2.1
  rw [Token.headBelow_of_isOperand h.placed.1, Token.tailBelow_of_isOperand h.placed.1,
    placed_append] at hkids
  exact ⟨a, la, ka, b, lb, kb, rfl, ⟨fun w marks => (hboth w marks).1, hkids.1⟩,
    fun w marks => (hboth w marks).2, hkids.2⟩

/-- A name by itself has nothing below it. -/
theorem name_parts (h : (Forest.tree id l kids).Values limits .one) (hkind : l.kind = .name) :
    kids = .nil := by
  cases h.free 0 fun _ _ => True with
  | name => rfl
  | plain hplain => rw [hkind] at hplain; exact absurd hplain (by decide)
  | _ => grind

end Values

/-! ## Statements -/

/-- Statements that stand `n` scopes deep and jump to the given targets, each with its own depth, or
to their own ones. -/
structure Made (limits : Limits) (stops : List (NodeId × Nat)) (n : Nat)
    (form : Form) (f : Forest) :
    Prop where
  built : ∀ w (marks : NodeId → Nat → Prop), (∀ s ∈ stops, marks s.1 (w + s.2)) →
    (∀ target depth, f.Marks (w + n) target depth → marks target depth) → Built marks form (w + n) f
  placed : f.Placed limits Token.isFree Token.isFree

/-- A plain node that is no jump, over a list. -/
theorem IsBuilt.plain (h : f.IsBuilt .list) (hkind : l.kind.isBare)
    (hjump : l.kind.isBranch = false) : (Forest.tree id l f).IsBuilt .one := by
  intro w marks hm
  have hw : l.kind ≠ .withBody := by
    rintro he
    rw [he] at hkind
    exact absurd hkind (by decide)
  refine .plain hkind (by simp [hjump]) (h w marks fun t d h => hm t d ?_)
  simp [hw, h]

variable {stops : List (NodeId × Nat)} {n : Nat} {stop : NodeId} {line : Option Nat}

/-- Values are statements of their kind. -/
theorem Values.made (h : f.Values limits form) : f.Made limits stops n form :=
  ⟨fun _ marks _ _ => h.free _ marks, h.placed.free⟩

namespace Made

/-- Wider limits. -/
theorem mono (h : f.Made limits stops n form) (hle : limits ≤ limits') :
    f.Made limits' stops n form := ⟨h.built, h.placed.mono hle⟩

theorem isBuilt (h : f.Made limits [] 0 form) : f.IsBuilt form :=
  fun w marks hm => h.built w marks nofun hm

/-- What jumps to no other targets may stand anywhere. -/
theorem anywhere (h : f.Made limits [] 0 form) : f.Made limits stops n form :=
  ⟨fun w marks _ hm => h.built (w + n) marks nofun hm, h.placed⟩

theorem nil : Forest.nil.Made limits stops n .list := ⟨fun _ _ _ _ => .nil, trivial⟩

theorem list (h : f.Made limits stops n .one) : f.Made limits stops n .list :=
  ⟨fun w marks hs hm => (h.built w marks hs hm).list_of_one, h.placed⟩

theorem append (hf : f.Made limits stops n .list) (hg : g.Made limits stops n .list) :
    (f ++ g).Made limits stops n .list := by
  refine ⟨fun w marks hs hm => ?_, placed_append.mpr ⟨hf.placed, hg.placed⟩⟩
  exact (hf.built w marks hs fun t d h => hm t d (by simp [h])).append
    (hg.built w marks hs fun t d h => hm t d (by simp [h]))

/-- More targets. -/
theorem wider {stops' : List (NodeId × Nat)} (h : f.Made limits stops n form)
    (hsub : stops ⊆ stops') : f.Made limits stops' n form :=
  ⟨fun w marks hs hm => h.built w marks (fun s hin => hs s (hsub hin)) hm, h.placed⟩

/-- A target of the statements themselves need not be given. -/
theorem close (stop : NodeId) (h : f.Made limits ((stop, n) :: stops) n form)
    (hstop : ∀ w, f.Marks w stop w) : f.Made limits stops n form := by
  refine ⟨fun w marks hs hm => h.built w marks ?_ hm, h.placed⟩
  exact List.forall_mem_cons.mpr ⟨hm _ _ (hstop _), hs⟩

theorem target : (Forest.leaf id (.ofKind .target)).Made limits stops n .list :=
  ⟨fun _ _ _ hm => .target rfl (hm _ _ (by simp)) .nil, .leaf rfl (.blank rfl)⟩

/-- A fresh jump to one of the targets. -/
theorem jump (hkind : kind = .goto ∨ kind = .jsr) (hstop : (stop, n) ∈ stops) :
    (Forest.leaf id ((Node.ofKind kind).withJump { target := some stop })).Made limits stops n
      .list := by
  refine ⟨fun w marks hs _ => .node (.plain ?_ (fun _ => ⟨stop, rfl, hs _ hstop⟩) .nil) .nil, ?_⟩
  all_goals rcases hkind with rfl | rfl
  all_goals first | rfl | exact .leaf rfl (.blank rfl)

/-- A fresh test that jumps to one of the targets. -/
theorem test (hkind : kind = .ifEq ∨ kind = .ifNe) (hstop : (stop, n) ∈ stops)
    (hf : f.Values limits .one) :
    (Forest.tree id ((Node.ofKind kind).withJump { target := some stop }) f).Made limits stops n
      .list := by
  refine ⟨fun w marks hs _ => .node (.plain ?_ (fun _ => ⟨stop, rfl, hs _ hstop⟩)
    (hf.free _ marks).list_of_one) .nil, ?_⟩
  all_goals rcases hkind with rfl | rfl
  all_goals first | rfl | exact .free (hf.placed.operand rfl (.blank rfl))

/-- A node other than the body of a with statement has the marks of its children. -/
theorem around (h : f.Made limits stops n .list) (hw : l.kind ≠ .withBody) (hfree : l.kind.isFree)
    (hholds : l.kind.holdsStatements) (hfits : l.Fits limits)
    (hone : ∀ w marks, (∀ s ∈ stops, marks s.1 (w + s.2)) → Built marks .list (w + n) f →
      (∀ target depth, f.Marks (w + n) target depth → marks target depth) →
        Built marks form (w + n) (.tree id l f)) :
        (Forest.tree id l f).Made limits stops n form := by
  refine ⟨fun w marks hs hm => ?_, h.placed.around hfree hholds hfits⟩
  have hm' : ∀ target depth, f.Marks (w + n) target depth → marks target depth :=
    fun t d h => hm t d (by simp [hw, h])
  exact hone w marks hs (h.built w marks hs hm') hm'

/-- A block of statements. -/
theorem block (h : f.Made limits stops n .list) (hkind : l.kind = .block) (hfits : l.Fits limits) :
    (Forest.tree id l f).Made limits stops n .one :=
  h.around (by simp [hkind]) (by rw [hkind]; rfl) (by rw [hkind]; rfl) hfits
    fun _ _ _ hf _ => .plain (by rw [hkind]; rfl) (by rw [hkind]; nofun) hf

/-- A loop, with its break target at its end. -/
theorem loop {j : JumpData} {continueTo : NodeId} (h : f.Made limits stops n .list)
    (hkind : l.kind = .loop) (hdata : l.data = .jump j) (htarget : j.target = some stop)
    (hcontinue : j.continueTarget = some continueTo) (hto : (continueTo, n) ∈ stops)
    (hfits : l.Fits limits) :
    (Forest.tree id l (f ++ .leaf stop (.ofKind .target))).Made limits stops n .one := by
  refine (h.append target).around (by simp [hkind]) (by rw [hkind]; rfl) (by rw [hkind]; rfl) hfits
    fun w marks hs _ hm => ?_
  exact .loop hkind hdata htarget hcontinue (hs _ hto)
    (h.built w marks hs fun t d h => hm t d (by simp [h])) rfl (hm _ _ (by simp))

/-- The body of a with statement counts one scope more. -/
theorem scope {enter inner leave : NodeId} (hf : f.Values limits .one)
    (hg : g.Made limits stops (n + 1) .one) :
    (Forest.tree enter (.ofKind .enterWith) f ++
      .tree inner ((Node.ofKind .withBody).withLine line) g ++
        .leaf leave (.ofKind .leaveWith)).Made limits stops n .list := by
  refine ⟨fun w marks hs hm => ?_, ?_⟩
  · have hbody := hg.built w marks hs fun t d h => hm t d (by simpa [Nat.add_assoc] using .inr h)
    exact .withScope rfl (hf.free _ marks).list_of_one rfl hbody.list_of_one rfl .nil
  · rw [placed_append, placed_append]
    exact ⟨⟨.free (hf.placed.operand rfl (.blank rfl)), hg.placed.around rfl rfl (.blank rfl)⟩,
      .leaf rfl (.blank rfl)⟩

end Made

end Forest

/-! ## Parts -/

/-- Pieces by their roots, with what is known of them. -/
structure Parts where
  roots : List NodeId
  Fits : Limits → Forest → Prop
  mono : ∀ {limits limits' : Limits} {f : Forest}, Fits limits f → limits ≤ limits' → Fits limits' f

namespace Parts

/-- A forest has the roots of some parts and is what they say. -/
def Holds (P : Parts) (limits : Limits) (f : Forest) : Prop := f.roots = P.roots ∧ P.Fits limits f

/-- No parts. -/
def none : Parts := ⟨[], fun _ _ => True, fun _ _ => trivial⟩

/-- Parts beside others. -/
def and (P Q : Parts) : Parts where
  roots := P.roots ++ Q.roots
  Fits limits f := ∃ g h, f = g ++ h ∧ P.Holds limits g ∧ Q.Holds limits h
  mono := by
    rintro limits limits' _ ⟨g, h, rfl, hg, hh⟩ hle
    exact ⟨g, h, rfl, ⟨hg.1, P.mono hg.2 hle⟩, hh.1, Q.mono hh.2 hle⟩

/-- Parts that may be missing. -/
def opt {α : Type} (P : α → Parts) : Option α → Parts
  | .none => none
  | .some a => P a

/-- The node of an expression. -/
def expr (id : NodeId) : Parts := ⟨[id], fun limits f => f.Values limits .one, .mono⟩

/-- The nodes of expressions. -/
def exprs (ids : List NodeId) : Parts := ⟨ids, fun limits f => f.Values limits .list, .mono⟩

/-- A single node, with jumps to other targets. -/
def made (stops : List (NodeId × Nat)) (n : Nat) (id : NodeId) : Parts :=
  ⟨[id], fun limits f => f.Made limits stops n .one, .mono⟩

/-- A single node. -/
abbrev node (id : NodeId) : Parts := made [] 0 id

/-- The nodes of statements in sequence. -/
def list (ids : List NodeId) : Parts := ⟨ids, fun limits f => f.Made limits [] 0 .list, .mono⟩

/-- A block, to which statements may still be added. -/
def block (id : NodeId) : Parts where
  roots := [id]
  Fits limits f := ∃ l kids, f = .tree id l kids ∧ l.kind = .block ∧ l.Fits limits ∧
    kids.Made limits [] 0 .list
  mono := by
    rintro limits limits' _ ⟨l, kids, rfl, hkind, hfits, hmade⟩ hle
    exact ⟨l, kids, rfl, hkind, hfits.mono hle, hmade.mono hle⟩

/-- What is made, unless the source is refused. -/
def checked (Q : NodeId → Parts) : Except SyntaxComplaint NodeId → Parts
  | .ok id => Q id
  | .error _ => none

theorem holds_none (limits : Limits) : none.Holds limits .nil := ⟨rfl, trivial⟩

/-- An optional part has at most one root. -/
theorem holds_opt {P : NodeId → Parts} (hP : ∀ id, (P id).roots = [id]) {o : Option NodeId}
    (h : (opt P o).Holds limits f) : f.roots = o.toList := by
  cases o with
  | none => exact h.1
  | some id => exact h.1.trans (hP id)

theorem Holds.of_block (h : (block id).Holds limits f) : (node id).Holds limits f := by
  obtain ⟨hroots, l, kids, rfl, hkind, hfits, hmade⟩ := h
  exact ⟨hroots, hmade.block hkind hfits⟩

/-- Two parts side by side. -/
theorem Holds.pair {P Q : Parts} (hf : P.Holds limits f) (hg : Q.Holds limits g) :
    (P.and Q).Holds limits (f ++ g) :=
  ⟨by rw [roots_append, hf.1, hg.1]; rfl, f, g, rfl, hf, hg⟩

end Parts

/-- The computation uses up some parts and leaves others. -/
def Crafts {α : Type} (P : Parts) (m : TreeM α) (Q : α → Parts) : Prop :=
  ∀ ⦃limits : Limits⦄ ⦃f : Forest⦄ ⦃t0 : Tree⦄ ⦃used : List NodeId⦄ ⦃t : Tree⦄, P.Holds limits f →
    Workbench t0 used t [f] → Runs m t fun a t' =>
      ∃ g, (Q a).Holds limits g ∧ Workbench t0 used t' [g]

/-- A shape may be made from parts that are more. -/
theorem Crafts.of {P P' : Parts} {m : TreeM α} {Q : α → Parts} (hm : Crafts P m Q)
    (hP : ∀ limits f, P'.Holds limits f → P.Holds limits f) : Crafts P' m Q :=
  fun _ _ _ _ _ hf H => hm (hP _ _ hf) H

/-- No other parts are needed. -/
theorem Crafts.alone {P : Parts} {m : TreeM α} {Q : α → Parts} (hm : Crafts P m Q) :
    Crafts (P.and .none) m Q := by
  refine hm.of ?_
  rintro limits _ ⟨-, f, g, rfl, hf, hg⟩
  rwa [eq_nil_of_roots hg.1, append_nil]

/-- The two parts may come the other way round. -/
theorem Crafts.swap {P Q : Parts} {m : TreeM α} {R : α → Parts}
    (hm : Crafts (P.and Q) m R) : Crafts (Q.and P) m R := by
  rintro limits _ t0 used t ⟨-, f, g, rfl, hf, hg⟩ H
  exact hm (hg.pair hf) (H.split.only [1, 0] (by decide))

namespace Workbench

variable {live : List Forest}

/-- A computation takes its parts from their places, and what it makes comes last. -/
theorem craft {P : Parts} {m : TreeM α} {Q : α → Parts} (H : Workbench t0 used t live)
    (places : List Nat) (hplaces : places.Nodup) (hm : Crafts P m Q)
    (hP : P.Holds limits (gather live places)) :
    Runs m t fun a t' => ∃ g, (Q a).Holds limits g ∧
      Workbench t0 used t' (clear live places ++ [g]) := by
  have hstart : Workbench t (gather live places).roots t [gather live places] :=
    start H.keeps.linked (H.gathered places) (H.gathered_nodup hplaces)
  exact (hm hP hstart).mono fun a t' ⟨g, hg, H'⟩ => ⟨g, hg, H.append places hplaces H'⟩

end Workbench

namespace Shape

open TreeM

variable {a b : NodeId}

/-! ## Expressions -/

/-- A new node that is a value by itself. -/
theorem crafts_push {n : Node} (hn : n.detached = n) (hraw : ∀ bound, n.Raw bound)
    (hv : ∀ limits id, (Forest.leaf id n.label).Values limits .one) :
    Crafts .none (TreeM.push n) .expr := fun limits _ _ _ _ _ H =>
  (H.push hn (hraw _)).mono fun id _ H => ⟨_, ⟨rfl, hv limits id⟩, H.last⟩

theorem crafts_string (name : String) : Crafts .none (newString .string name) .expr :=
  crafts_push rfl (fun _ => .fresh rfl rfl) fun _ _ =>
    .operation .nil ⟨rfl, rfl, rfl, ⟨name, rfl⟩, nofun, rfl, nofun⟩

theorem crafts_name (name : String) : Crafts .none (newString .name name) .expr :=
  crafts_push rfl (fun _ => .fresh rfl rfl) fun _ _ => .name rfl ⟨⟨name, rfl⟩, nofun, rfl, nofun⟩

theorem crafts_atom (hkind : kind.IsOperator) : Crafts .none (newNode kind) .expr :=
  fun _ _ _ _ _ _ H => H.newNode.mono fun _ _ H =>
    ⟨_, ⟨rfl, Values.nil.operation (hkind.operates rfl rfl rfl)⟩, H.last⟩

/-- A fresh node over operands. -/
theorem crafts_operation {list : List NodeId} (hlen : list.length ≤ 3) (hkind : kind.IsOperator) :
    Crafts (.exprs list) (newWithChildren kind list) .expr := by
  rintro limits f t0 used t ⟨hroots, hf⟩ H
  refine (H.above [0] (List.nodup_singleton 0) hroots hlen).mono fun id t' H =>
    ⟨_, ⟨rfl, ?_⟩, H.last⟩
  exact hf.operation (hkind.operates rfl rfl rfl)

/-- An operator with one operand. -/
theorem crafts_unary (hkind : kind.IsOperator) : Crafts (.expr a) (unary kind a) .expr :=
  (crafts_operation (by simp) hkind).of fun _ _ h => ⟨h.1, h.2.list⟩

/-- An operator with two operands. -/
theorem crafts_binary (hkind : kind.IsOperator) :
    Crafts ((Parts.expr a).and (.expr b)) (binary kind a b) .expr := by
  refine (crafts_operation (by simp) hkind).of ?_
  rintro limits _ ⟨hroots, f, g, rfl, hf, hg⟩
  exact ⟨hroots, hf.2.list.append hg.2.list⟩

/-- An access to a property or an element. -/
theorem crafts_access (hkind : kind = .getProp ∨ kind = .getElem) :
    Crafts ((Parts.expr a).and (.expr b)) (binary kind a b) .expr := by
  rintro limits _ t0 used t ⟨hroots, f, g, rfl, hf, hg⟩ H
  refine Runs.mono (H.above [0] (List.nodup_singleton 0) hroots (by simp)) fun id t' H =>
    ⟨_, ⟨rfl, ?_⟩, H.last⟩
  exact hf.2.access hg.2 hkind

/-- A property that is read by its name. -/
theorem crafts_getProp (name : String) : Crafts (.expr a) (getProp a name) .expr := by
  rintro limits f t0 used t hf H
  refine (H.craft [] .nil (crafts_string name) (Parts.holds_none limits)).bind
    fun key t1 ⟨g, hg, H⟩ => ?_
  refine (H.craft [0, 1] (by decide) (crafts_access (.inl rfl)) (hf.pair hg)).mono ?_
  exact fun id t' ⟨x, hx, H⟩ => ⟨x, hx, H.last⟩

/-- Taking an access apart. -/
theorem runs_detachPair (h : t.Linked)
    (hst : t.Stands (.tree id l (.tree a la ka ++ .tree b lb kb))) :
    Runs (detachPair id) t fun r t' =>
      r = (a, b) ∧ t'.Stands (.tree a la ka ++ .tree b lb kb) ∧ t.Keeps [id] t' := by
  have hch : t.children id = [a, b] := hst.1.1.2.2
  have hfirst : t.firstChild? id = some a := by rw [h.firstChild?_eq, hch]; rfl
  have hlast : t.lastChild? id = some b := by rw [h.last, hch]; rfl
  have hid : id ∉ [a, b] := hch ▸ hst.2 id (by simp) id
  simp only [List.mem_cons, List.not_mem_nil, or_false, not_or] at hid
  unfold detachPair
  refine Runs.get_bind ?_
  simp only [hfirst, hlast]
  refine (runs_removeChild h .nil _ hst).bind fun _ t1 ⟨hst1, ha1, hk1⟩ => ?_
  refine (runs_removeChild hk1.linked .nil .nil hst1).bind fun _ t2 ⟨hst2, hb2, hk2⟩ => ?_
  refine Runs.pure ⟨rfl, Tree.stands_append.mpr ⟨hk2.tree ha1 ?_, hb2⟩, hk1.trans hk2 ?_⟩
  · simpa using Ne.symm hid.1
  · exact fun r hr _ _ => (or_self_iff).mp hr

/-- An access is taken apart, and its parts go below a fresh node, before other operands. -/
theorem runs_rehang {list : List NodeId}
    (H : Workbench t0 used t [.tree id l (.tree a la ka ++ .tree b lb kb), g])
    (hg : g.roots = list) (hlen : list.length ≤ 1) :
    Runs (do
        let (object, key) ← detachPair id
        newWithChildren kind (object :: key :: list)) t fun node t' => Workbench t0 used t'
      [.tree node (.ofKind kind) (.tree a la ka ++ .tree b lb kb ++ g)] := by
  subst hg
  have h := H.keeps.linked
  have hst := H.gathered [0]
  have hch : t.children id = [a, b] := hst.1.1.2.2
  have hstg : t.Stands g := H.gathered [1]
  have hnodup : (id :: g.roots).Nodup := H.gathered_nodup (show [0, 1].Nodup by decide)
  obtain ⟨hid, hnodupg⟩ := List.nodup_cons.mp hnodup
  -- The parts of the access have a parent, so that they are no roots.
  have hchild : ∀ r ∈ [a, b], ¬ t.Orphan r := fun r hr ho => ho id (hch ▸ hr)
  have hnew : (a :: b :: g.roots).Nodup := by
    refine List.nodup_append.mpr ⟨hch ▸ h.nodup id, hnodupg, ?_⟩
    rintro r hr _ hrg rfl
    exact hchild r hr (hstg.2 r hrg)
  refine (runs_detachPair h hst).bind ?_
  rintro _ t1 ⟨rfl, hst1, hk1⟩
  have hstg1 := hk1.stands g hstg fun r hr hin => hid (List.mem_singleton.mp hin ▸ hr)
  refine (runs_newWithChildren hk1.linked (Tree.stands_append.mpr ⟨hst1, hstg1⟩) (by simp) hnew
    (Nat.add_le_add_right hlen 2)).mono ?_
  rintro node t2 ⟨hnode, hst2, hk2⟩
  have hle := hk1.size_le
  refine (H.append [0, 1] (by decide) (.ofTree (hk1.trans hk2 ?_) hst2 (.inr (by omega)))).last
  intro r hr _ ho
  show r ∈ id :: g.roots
  have hr' := hchild r
  simp only [List.mem_cons, List.not_mem_nil, or_false] at hr hr' ⊢
  tauto

/-- Assignment takes its target apart. -/
theorem crafts_assignment :
    Crafts ((Parts.expr a).and (.expr b)) (assignment a b) (.checked .expr) := by
  rintro limits _ t0 used t ⟨-, f, g, rfl, hf, hg⟩ H
  replace H := H.split
  obtain ⟨l, kids, rfl⟩ := eq_tree_of_roots hf.1
  have hstore : l.kind = .getProp ∨ l.kind = .getElem →
      ∀ kind : Token, kind = .setProp ∨ kind = .setElem → Runs (do
        let (object, key) ← detachPair a
        .ok <$> newWithChildren kind [object, key, b]) t fun r t' =>
      ∃ g, (Parts.checked .expr r).Holds limits g ∧ Workbench t0 used t' [g] := by
    intro haccess kind hkind
    obtain ⟨x, lx, kx, y, ly, ky, rfl, hx, hy⟩ := hf.2.access_parts haccess
    rw [← map_bind]
    refine Runs.map (Runs.mono (runs_rehang H hg.1 (by simp)) fun id t' H => ⟨_, ⟨rfl, ?_⟩, H⟩)
    refine ((hx.list.append hy.list).append hg.2.list).operation ?_
    rcases hkind with rfl | rfl <;> exact ⟨rfl, rfl, rfl, .blank rfl⟩
  unfold assignment
  refine H.kind_bind (i := 0) rfl ?_
  split
  · next hkind =>
    obtain rfl := hf.2.name_parts hkind
    refine (H.setKind (i := 0) rfl).bind fun _ t1 H => Runs.map ?_
    refine Runs.mono (H.above [0, 1] (by decide) (congrArg (a :: ·) hg.1) (by simp)) fun id t2 H =>
      ⟨_, ⟨rfl, fun w marks => .setName rfl rfl (hg.2.free w marks), ?_⟩, H.last⟩
    have hname := hf.2.placed.2.1.carries
    rw [hkind] at hname
    exact Forest.Placed.operand (.cons (.leaf rfl
      (hf.2.placed.2.1.withKind hname nofun)) hg.2.placed) rfl (.blank rfl)
  · next hkind => exact hstore (.inl hkind) .setProp (.inl rfl)
  · next hkind => exact hstore (.inr hkind) .setElem (.inr rfl)
  · exact Runs.pure ⟨.nil, ⟨rfl, trivial⟩, H.only [] .nil⟩

/-- Deletion of a name keeps the name in two nodes, that of an access its parts. -/
theorem crafts_delete : Crafts (.expr a) (delete a) .expr := by
  rintro limits f t0 used t hf H
  obtain ⟨l, kids, rfl⟩ := eq_tree_of_roots hf.1
  have haccess : l.kind = .getProp ∨ l.kind = .getElem →
      Runs (do
        let (object, key) ← detachPair a
        binary .delProp object key) t fun id t' =>
      ∃ g, (Parts.expr id).Holds limits g ∧ Workbench t0 used t' [g] := by
    intro hkind
    obtain ⟨x, lx, kx, y, ly, ky, rfl, hx, hy⟩ := hf.2.access_parts hkind
    have H : Workbench t0 used t [.tree a l (.tree x lx kx ++ .tree y ly ky), .nil] := by
      rw [← append_nil (Forest.tree a l _)] at H
      exact H.split
    refine (runs_rehang H rfl (by simp)).mono fun id t' H => ⟨_, ⟨rfl, fun w marks => ?_, ?_⟩, H⟩
    · have hdelete : Built marks .one w (.tree id (.ofKind .delProp)
          (.tree x lx kx ++ .tree y ly ky)) :=
        .deleteProp rfl (hx.free w marks) (hy.free w marks)
      exact hdelete
    · exact (placed_append.mpr ⟨hx.placed, hy.placed⟩).operand rfl (.blank rfl)
  unfold delete
  refine H.kind_bind (i := 0) rfl ?_
  split
  · next hkind =>
    obtain rfl := hf.2.name_parts hkind
    have hname := hf.2.placed.2.1.carries
    rw [hkind] at hname
    refine (H.setKind (i := 0) rfl).bind fun _ t1 H => ?_
    refine (H.cloneNode (i := 0) rfl).bind fun key t2 H => ?_
    refine (H.setKind (i := 1) rfl).bind fun _ t3 H => ?_
    refine Runs.mono (H.above [0, 1] (by decide) rfl (by simp)) fun id t4 H =>
      ⟨_, ⟨rfl, fun w marks => .deleteName rfl rfl rfl, ?_⟩, H.last⟩
    have hbind := hf.2.placed.2.1.withKind (k := .bindName) hname nofun
    exact Forest.Placed.operand (.cons (.leaf rfl hbind)
      (.leaf rfl (hbind.withKind hname nofun))) rfl (.blank rfl)
  · next hkind => exact haccess (.inl hkind)
  · next hkind => exact haccess (.inr hkind)
  · refine H.newNode.mono fun id t' H => ⟨_, ⟨rfl, ?_⟩, H.last⟩
    exact Values.nil.operation ⟨rfl, rfl, rfl, .blank rfl⟩

/-- A call over its callee and its arguments. -/
theorem crafts_invocation {args : List NodeId} (hkind : kind = .call ∨ kind = .new) :
    Crafts ((Parts.expr a).and (.exprs args)) (invocation kind a args) .expr := by
  rintro limits _ t0 used t ⟨-, f, g, rfl, hf, hg⟩ H
  refine Runs.bind (H.split.above [0] (by decide) hf.1 (by simp)) fun id t1 H => ?_
  refine Runs.bind (H.addChildren (i := 2) [1] rfl (by decide) hg.1) fun _ t2 H => ?_
  refine Runs.pure ⟨_, ⟨rfl, ?_⟩, H.only [2] (by decide)⟩
  refine (hf.2.list.append hg.2).operation ?_
  rcases hkind with rfl | rfl <;> exact ⟨rfl, rfl, rfl, .blank rfl⟩

end Shape

end ScriptEngine
