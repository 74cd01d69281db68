import ScriptEngine.Document.Build
import ScriptEngine.Proofs.Outcomes

/-!
# Where functions stand

A function stands in an expression or is a statement of its own. Whether such a statement declares
the function depends on what lies between it and the body it is in: labels do not count, everything
else does. The player keeps count of it: whatever it plays, it comes back to the depth it started
from. The functions of a document form trees, and the bodies of its program are numbered in the
order in which the functions begin.
-/

namespace ScriptEngine

open Steady Builder

variable {f : Body → Body} {b : Builder} {α : Type} {script : Script} {fallback : Option String}

namespace Document

/-- What may lie between a statement and the body it is in. -/
inductive Construct where
  | label
  | block
  | branch
  | loop
  | switch
  | attempt
  | withScope
deriving DecidableEq, Repr

/-- A function stands in an expression, or as a statement inside constructs, the innermost first. -/
inductive Position where
  | expression
  | statement (around : List Construct)
deriving DecidableEq, Repr

/-- A statement declares a function if there are only labels around it. -/
def Position.functionType : Position → FunctionType
  | .expression => .expression
  | .statement around => if ∀ c ∈ around, c = .label then .statement else .expressionStatement

/-- The type, the name and the first line of a body. -/
abbrev Header := Option FunctionType × String × Option Nat

/-- Functions of a document side by side, each with those inside it. -/
inductive Nests where
  | nil
  | cons (position : Position) (name : String) (line : Nat) (inner rest : Nests)

namespace Nests

def append : Nests → Nests → Nests
  | .nil, ns => ns
  | .cons position name line inner rest, ns => .cons position name line inner (rest.append ns)

instance : Append Nests := ⟨append⟩

private theorem append_nil (ns : Nests) : ns ++ .nil = ns := by
  induction ns with
  | nil => rfl
  | cons position name line inner rest _ ih => exact congrArg (cons position name line inner) ih

private theorem append_assoc (ns1 ns2 ns3 : Nests) : ns1 ++ ns2 ++ ns3 = ns1 ++ (ns2 ++ ns3) := by
  induction ns1 with
  | nil => rfl
  | cons position name line inner rest _ ih => exact congrArg (cons position name line inner) ih

/-- The headers of the functions, in the order in which they begin. -/
def headers : Nests → List Header
  | .nil => []
  | .cons position name line inner rest =>
    (some position.functionType, name, knownLine line) :: (inner.headers ++ rest.headers)

private theorem headers_append (ns ns' : Nests) :
    (ns ++ ns').headers = ns.headers ++ ns'.headers := by
  induction ns with
  | nil => rfl
  | cons position name line inner rest _ ih =>
    show _ :: (inner.headers ++ (rest ++ ns').headers) = _ :: (inner.headers ++ rest.headers) ++ _
    rw [ih, List.cons_append, List.append_assoc]

end Nests

mutual

/-- The functions in an expression, in the order in which they are built. -/
def Expr.functions : Expr → Nests
  | .name _ | .string _ | .number _ | .boolean _ | .null | .receiver | .regExp .. => .nil
  | .unary _ operand => operand.functions
  | .binary _ left right => left.functions ++ right.functions
  | .member object _ => object.functions
  | .element object index => object.functions ++ index.functions
  | .assign target value => target.functions ++ value.functions
  | .delete target => target.functions
  | .call callee args | .new callee args => callee.functions ++ exprsFunctions args
  | .function definition => definition.functions .expression

def exprsFunctions : List Expr → Nests
  | [] => .nil
  | e :: rest => e.functions ++ exprsFunctions rest

def optExprFunctions : Option Expr → Nests
  | none => .nil
  | some e => e.functions

def FunctionDef.functions (position : Position) : FunctionDef → Nests
  | .mk name _ body line _ _ => .cons position name line (stmtsFunctions [] body) .nil

/-- The functions in a statement inside the given constructs. A body of a loop that is tested last
comes before its test, and so do the statements of a clause. -/
def Stmt.functions (around : List Construct) : Stmt → Nests
  | .expr expr _ => expr.functions
  | .var decls _ => declsFunctions decls
  | .block body _ => stmtsFunctions (.block :: around) body
  | .ifElse cond yes no _ => cond.functions ++
      (yes.functions (.branch :: around) ++ optStmtFunctions (.branch :: around) no)
  | .whileLoop cond body _ => cond.functions ++ body.functions (.loop :: around)
  | .doWhile body cond _ => body.functions (.loop :: around) ++ cond.functions
  | .forLoop init cond step body _ => optStmtFunctions (.loop :: around) init ++
      (optExprFunctions cond ++ (optExprFunctions step ++ body.functions (.loop :: around)))
  | .forIn left object body _ => left.functions (.loop :: around) ++
      (object.functions ++ body.functions (.loop :: around))
  | .ret value _ => optExprFunctions value
  | .throw value _ => value.functions
  | .breakTo .. | .continueTo .. => .nil
  | .labelled _ body _ => body.functions (.label :: around)
  | .switch selector cases _ => selector.functions ++ casesFunctions (.switch :: around) cases
  | .tryCatch block handlers final _ => stmtsFunctions (.attempt :: around) block ++
      (handlersFunctions (.attempt :: around) handlers ++
        optStmtsFunctions (.attempt :: around) final)
  | .withScope object body _ => object.functions ++ body.functions (.withScope :: around)
  | .function definition => definition.functions (.statement around)

def stmtsFunctions (around : List Construct) : List Stmt → Nests
  | [] => .nil
  | s :: rest => s.functions around ++ stmtsFunctions around rest

def optStmtFunctions (around : List Construct) : Option Stmt → Nests
  | none => .nil
  | some s => s.functions around

def optStmtsFunctions (around : List Construct) : Option (List Stmt) → Nests
  | none => .nil
  | some body => stmtsFunctions around body

def declsFunctions : List Declarator → Nests
  | [] => .nil
  | .mk _ init :: rest => optExprFunctions init ++ declsFunctions rest

def casesFunctions (around : List Construct) : List SwitchCase → Nests
  | [] => .nil
  | .mk test body :: rest =>
    stmtsFunctions around body ++ (optExprFunctions test ++ casesFunctions around rest)

def handlersFunctions (around : List Construct) : List Handler → Nests
  | [] => .nil
  | .mk _ guard body _ :: rest =>
    optExprFunctions guard ++ (stmtsFunctions around body ++ handlersFunctions around rest)

end

/-- The functions of a script. -/
def Script.functions (script : Script) : Nests := stmtsFunctions [] script.body

private theorem stmtsFunctions_append (around : List Construct) (before after : List Stmt) :
    stmtsFunctions around (before ++ after) =
      stmtsFunctions around before ++ stmtsFunctions around after := by
  induction before with
  | nil => rfl
  | cons s before ih => simp [stmtsFunctions, ih, Nests.append_assoc]

/-- The constructs that count. -/
def depth : List Construct → Nat
  | [] => 0
  | .label :: around => depth around
  | _ :: around => depth around + 1

private theorem depth_eq_zero {around : List Construct} :
    depth around = 0 ↔ ∀ c ∈ around, c = .label := by
  induction around with
  | nil => simp [depth]
  | cons c around ih => cases c <;> simp [depth, ih]

private theorem depth_replicate (n : Nat) : depth (List.replicate n .block) = n := by
  induction n with
  | zero => rfl
  | succ n ih => simp [List.replicate_succ, depth, ih]

end Document

/-! ## Records of bodies -/

open Document

/-- What a body records of its place in the program. -/
structure Outline where
  header : Header
  parent : Option BodyId
  functions : List BodyId

/-- More functions are listed. -/
def Outline.list (ids : List BodyId) (o : Outline) : Outline :=
  { o with functions := o.functions ++ ids }

private theorem Outline.list_nil : Outline.list [] = id := by
  funext o
  simp [list]

private theorem Outline.list_list (ids ids' : List BodyId) :
    Outline.list ids' ∘ Outline.list ids = Outline.list (ids ++ ids') := by
  funext o
  simp [list]

def Body.header (b : Body) : Header := (b.functionType, b.name, b.baseLine)

def Body.outline (b : Body) : Outline := ⟨b.header, b.parent, b.functions⟩

def Program.outlines (p : Program) : List Outline := p.bodies.toList.map Body.outline

private theorem Program.outlines_push (p : Program) (tree : Tree) (x : Body) :
    ({ tree, bodies := p.bodies.push x } : Program).outlines = p.outlines ++ [x.outline] := by
  simp [outlines]

private theorem modify_append {l l' : List Outline} {i : Nat} (f : Outline → Outline)
    (h : i < l.length) : (l ++ l').modify i f = l.modify i f ++ l' := by
  refine List.ext_getElem? fun j => ?_
  grind

private theorem modify_concat (l : List Outline) (o : Outline) (f : Outline → Outline) :
    (l ++ [o]).modify l.length f = l ++ [f o] := by
  refine List.ext_getElem? fun j => ?_
  grind

/-- A body is changed. -/
theorem Program.outlines_modifyBody (p : Program) (id : BodyId)
    {g : Outline → Outline} (h : ∀ x : Body, (f x).outline = g x.outline) :
    (p.modifyBody id f).outlines = p.outlines.modify id.index g := by
  refine List.ext_getElem? fun j => ?_
  simp only [outlines, modifyBody, Array.toList_modify, List.getElem?_map, List.getElem?_modify]
  cases p.bodies.toList[j]? with
  | none => rfl
  | some x => by_cases hj : id.index = j <;> simp [hj, h]

namespace Document.Nests

/-- The numbers of functions side by side, if the first one gets the given number. -/
def ids (first : Nat) : Nests → List BodyId
  | .nil => []
  | .cons _ _ _ inner rest => ⟨first⟩ :: rest.ids (first + 1 + inner.headers.length)

/-- What the bodies of the functions record. -/
def outlines (parent : BodyId) (first : Nat) : Nests → List Outline
  | .nil => []
  | .cons position name line inner rest =>
    ⟨(some position.functionType, name, knownLine line), some parent, inner.ids (first + 1)⟩ ::
      (inner.outlines ⟨first⟩ (first + 1) ++
        rest.outlines parent (first + 1 + inner.headers.length))

private theorem ids_append (first : Nat) (ns ns' : Nests) :
    (ns ++ ns').ids first = ns.ids first ++ ns'.ids (first + ns.headers.length) := by
  induction ns generalizing first with
  | nil => rfl
  | cons position name line inner rest _ ih =>
    refine congrArg (⟨first⟩ :: ·) ((ih _).trans ?_)
    simp [headers, Nat.add_assoc, Nat.add_comm 1]

private theorem outlines_append (parent : BodyId) (first : Nat) (ns ns' : Nests) :
    (ns ++ ns').outlines parent first =
      ns.outlines parent first ++ ns'.outlines parent (first + ns.headers.length) := by
  induction ns generalizing first with
  | nil => rfl
  | cons position name line inner rest _ ih =>
    refine (congrArg (fun more => _ :: (_ ++ more)) (ih _)).trans ?_
    simp [outlines, headers, Nat.add_assoc, Nat.add_comm 1]

private theorem header_outlines (parent : BodyId) (first : Nat) (ns : Nests) :
    (ns.outlines parent first).map Outline.header = ns.headers := by
  induction ns generalizing parent first with
  | nil => rfl
  | cons position name line inner rest ihi ihr => simp [outlines, headers, ihi, ihr]

/-- There is one for each function. -/
theorem length_outlines (parent : BodyId) (first : Nat) (ns : Nests) :
    (ns.outlines parent first).length = ns.headers.length := by
  simp [← ns.header_outlines parent first]

end Document.Nests

/-! ## Building -/

namespace Builder

def outlines (b : Builder) : List Outline := b.program.outlines

/-- The records of the bodies, and which functions are open. -/
def view (b : Builder) : List Outline × List BodyId := (b.outlines, b.opened)

/-- What functions leave behind that are built inside the current one: records of their own, and
their numbers in the table of the current one. -/
structure Gains (b : Builder) (ns : Nests) (b' : Builder) : Prop where
  opened_eq : b'.opened = b.opened
  outlines_eq : b'.outlines = b.outlines.modify b.current.index
    (.list (ns.ids b.outlines.length)) ++ ns.outlines b.current b.outlines.length

variable {b' b'' : Builder} {ns ns' : Nests}

private theorem Gains.of_view_eq (h : b'.view = b.view) : b.Gains .nil b' := by
  obtain ⟨houtlines, hopened⟩ := Prod.mk.inj h
  exact ⟨hopened, by simp [houtlines, Nests.ids, Nests.outlines, Outline.list_nil]⟩

private theorem Gains.current_eq (h : b.Gains ns b') : b'.current = b.current := by
  rw [current, h.opened_eq, current]

private theorem Gains.length_eq (h : b.Gains ns b') :
    b'.outlines.length = b.outlines.length + ns.headers.length := by
  simp [h.outlines_eq, Nests.length_outlines]

private theorem Gains.trans (h : b.Gains ns b') (h' : b'.Gains ns' b'')
    (hcurrent : b.current.index < b.outlines.length) : b.Gains (ns ++ ns') b'' := by
  refine ⟨h'.opened_eq.trans h.opened_eq, ?_⟩
  rw [h'.outlines_eq, h.current_eq, h.length_eq, h.outlines_eq,
    modify_append _ (by simpa using hcurrent), List.modify_modify_eq, Outline.list_list,
    ← Nests.ids_append, List.append_assoc, ← Nests.outlines_append]

private theorem steady_onTree (m : TreeM α) : Steady view (onTree m) := by
  intro b a b' hrun
  obtain ⟨step, -, hstep⟩ := Stepwise.exists_of_bind (n := Except Fault) hrun
  cases hstep
  rfl

private theorem steady_modifyBody (k : BodyId) (h : ∀ x : Body, (f x).outline = x.outline) :
    Steady view (modifyBody k f) := Steady.modify fun b =>
  congrArg (·, b.opened) ((b.program.outlines_modifyBody k (g := id) h).trans (List.modify_id _ _))

private theorem steady_regExp (source flags : String) : Steady view (regExp source flags) :=
  .get_bind fun _ => .bind (steady_modifyBody _ fun _ => rfl) fun _ => .get_bind fun _ =>
    steady_onTree _

private theorem steady_addVar (statement : NodeId) (name : String) (init : Option NodeId) :
    Steady view (addVar statement name init) :=
  .get_bind fun _ => .bind (steady_modifyBody _ fun _ => rfl) fun _ => steady_onTree _

private theorem steady_addParam (name : String) : Steady view (addParam name) :=
  .get_bind fun _ => (Steady.lift _).bind fun _ => steady_modifyBody _ fun _ => rfl

private theorem steady_setSource (id : BodyId) (source : String) :
    Steady view (setSource id source) :=
  .get_bind fun _ => (Steady.lift _).bind fun _ => steady_modifyBody _ fun _ => rfl

private theorem steady_bindOwnName (id : BodyId) : Steady view (bindOwnName id) :=
  .get_bind fun _ =>
    .ite (.bind (steady_modifyBody _ fun _ => rfl) fun _ => steady_onTree _) (.pure _)

/-- A function is opened inside the current one and gets the next number. -/
theorem ends_beginFunction (name : String) (functionType : FunctionType) (line : Nat) :
    Ends (beginFunction name functionType line) b fun id b' => id = ⟨b.outlines.length⟩ ∧
      b'.opened = id :: b.opened ∧ b'.outlines = b.outlines ++
        [⟨(some functionType, name, knownLine line), some b.current, []⟩] := by
  unfold beginFunction
  refine Ends.get_bind (ends_bind (steady_onTree _) fun root b1 h1 => Ends.get_bind ?_)
  have houtlines : b1.program.outlines = b.outlines := (Prod.mk.inj h1).1
  have hsize : b1.program.bodies.size = b.outlines.length := by simp [← houtlines, Program.outlines]
  rw [Program.addBody]
  refine Ends.set_bind (Ends.pure ⟨congrArg BodyId.mk hsize, rfl, ?_⟩)
  refine (Program.outlines_modifyBody _ _ (g := fun o =>
    { o with parent := some b.current, header := (o.header.1, o.header.2.1, knownLine line) })
    fun _ => rfl).trans ?_
  rw [Program.outlines_push, houtlines, hsize, modify_concat]
  rfl

/-- The innermost function is closed, and the one around it lists it. -/
theorem ends_finishFunction {id : BodyId} {opened : List BodyId} (h : b.opened = id :: opened)
    (statements : List NodeId) (endLine : Nat) :
    Ends (finishFunction id statements endLine) b fun _ b' => b'.opened = opened ∧
      b'.outlines = b.outlines.modify (opened.headD .script).index (.list [id]) := by
  unfold finishFunction
  refine Ends.get_bind ?_
  rw [if_neg (by simp [h])]
  refine Ends.set_bind ?_
  extract_lets root name
  -- up to the last step the records stay as they are
  refine ends_bind (steady_onTree _) fun _ b1 h1 => ?_
  refine ends_bind (steady_modifyBody _ fun _ => rfl) fun _ b2 h2 => ?_
  refine ends_bind (steady_bindOwnName _) fun _ b3 h3 => ?_
  refine ends_bind (steady_onTree _) fun _ b4 h4 => ?_
  refine ends_bind (steady_onTree _) fun node b5 h5 => ?_
  refine ends_bind (steady_modifyBody _ fun _ => rfl) fun _ b6 h6 => ?_
  obtain ⟨houtlines, hopened⟩ : b6.outlines = b.outlines ∧ b6.opened = opened := by
    have hview : b6.view = (b.outlines, b.opened.tail) := by
      rw [h6, h5, h4, h3, h2, h1]
      rfl
    simpa [view, h] using hview
  refine Ends.get_bind ?_
  rintro _ _ ⟨⟩
  refine ⟨hopened, ?_⟩
  rw [← houtlines, ← hopened]
  exact Program.outlines_modifyBody _ _ fun _ => rfl

private theorem ends_finishScript (statements : List NodeId) (endLine : Nat) :
    Ends (finishScript statements endLine) b fun p _ => p.outlines = b.outlines := by
  unfold finishScript
  refine Ends.get_bind ?_
  split
  · exact fun _ _ hrun => nomatch hrun
  refine Ends.get_bind (ends_bind (steady_onTree _) fun _ b1 h1 => ?_)
  refine ends_bind (steady_modifyBody _ fun _ => rfl) fun _ b2 h2 => Ends.get_bind (Ends.pure ?_)
  exact (Prod.mk.inj (h2.trans h1)).1

end Builder

namespace Document

variable {β : Type} {nesting : Nat}

/-- A step of the builder does not touch the depth. -/
theorem ends_onBuilder {m : BuildM α} {p : α → Builder → Prop} (hm : Ends m b p) :
    Ends (onBuilder m).run ⟨b, nesting⟩ fun r player =>
      player.nesting = nesting ∧ ∃ a, r = .ok a ∧ p a player.builder := by
  intro r player hrun
  obtain ⟨⟨a, b'⟩, hstep, hr⟩ := Stepwise.exists_of_bind (n := Except Fault) hrun
  cases hr
  exact ⟨rfl, a, rfl, hm a b' hstep⟩

/-- A step of the builder, and then the rest. -/
theorem ends_onBuilder_bind {m : BuildM α} {f : α → DocumentM β} {p : α → Builder → Prop}
    {q : Except BuildError β → Player → Prop} (hm : Ends m b p)
    (hf : ∀ a b', p a b' → Ends (f a).run ⟨b', nesting⟩ q) :
    Ends (onBuilder m >>= f).run ⟨b, nesting⟩ q := by
  rw [ExceptT.run_bind]
  refine (ends_onBuilder hm).bind ?_
  rintro _ ⟨b', _⟩ ⟨rfl, a, rfl, h⟩
  exact hf a b' h

/-- Played at a depth, the computation comes back to it. Where it gives an answer, the functions
have been built inside the current one. -/
def Opens (nesting : Nat) (m : DocumentM α) (ns : Nests) : Prop :=
  ∀ b : Builder, Ends m.run ⟨b, nesting⟩ fun r player => player.nesting = nesting ∧
    (b.current.index < b.outlines.length → ∀ a, r = .ok a → b.Gains ns player.builder)

namespace Opens

variable {m : DocumentM α} {f : α → DocumentM β} {ns ns' : Nests}

private theorem pure (a : α) : Opens nesting (Pure.pure a : DocumentM α) .nil := fun _ =>
  Ends.pure ⟨rfl, fun _ _ _ => .of_view_eq rfl⟩

private theorem throw (e : BuildError) : Opens nesting (throw e : DocumentM α) ns := fun _ =>
  Ends.pure ⟨rfl, nofun⟩

private theorem bind (hm : Opens nesting m ns) (hf : ∀ a, Opens nesting (f a) ns') :
    Opens nesting (m >>= f) (ns ++ ns') := by
  intro b
  rw [ExceptT.run_bind]
  refine (hm b).bind ?_
  rintro r ⟨b', _⟩ ⟨rfl, h⟩
  cases r with
  | error e => exact Ends.pure ⟨rfl, nofun⟩
  | ok a =>
    refine (hf a b').mono fun _ _ ⟨hdepth, h'⟩ => ⟨hdepth, fun hb c hc => ?_⟩
    have hgains := h hb a rfl
    refine hgains.trans (h' ?_ c hc) hb
    rw [hgains.current_eq, hgains.length_eq]
    omega

/-- Steps at the end that build no function. -/
theorem ending (hm : Opens nesting m ns) (hf : ∀ a, Opens nesting (f a) .nil) :
    Opens nesting (m >>= f) ns := ns.append_nil ▸ hm.bind hf

private theorem map (hm : Opens nesting m ns) (g : α → β) : Opens nesting (g <$> m) ns := by
  rw [map_eq_pure_bind]
  exact hm.ending fun _ => .pure _

/-- A step that looks at the player. -/
theorem get_bind {f : Player → DocumentM α} (hf : ∀ b, Opens nesting (f ⟨b, nesting⟩) ns) :
    Opens nesting (get >>= f) ns := fun b => hf b b

/-- Inside a construct the depth is one more, and behind it what it was. -/
theorem deeper (hm : Opens (nesting + 1) m ns) : Opens nesting (deeper m) ns := fun b =>
  Ends.modify_bind ((hm b).bind fun _ _ ⟨hdepth, h⟩ =>
    Ends.modify_bind (Ends.pure ⟨by simp [hdepth], h⟩))

/-- Inside a function the depth starts at zero, and behind it it is what it was. -/
theorem afresh (hm : Opens 0 m ns) : Opens nesting (afresh m) ns := fun b =>
  Ends.get_bind (Ends.modify_bind ((hm b).bind fun _ _ ⟨_, h⟩ =>
    Ends.modify_bind (Ends.pure ⟨rfl, h⟩)))

/-- A step of the builder that changes no record. -/
theorem steady {m : BuildM α} (hm : Steady Builder.view m) : Opens nesting (onBuilder m) .nil :=
  fun b => (ends_onBuilder (hm b)).mono fun _ _ ⟨hdepth, _, _, h⟩ =>
    ⟨hdepth, fun _ _ _ => .of_view_eq h⟩

private theorem shape (m : TreeM α) : Opens nesting (shape m) .nil := .steady (steady_onTree m)

private theorem checkedShape (m : TreeM (Except SyntaxComplaint α)) :
    Opens nesting (checkedShape m) .nil := by
  refine (shape m).ending fun r => ?_
  cases r with
  | ok a => exact .pure a
  | error complaint => exact .throw _

/-- A statement that is one node. -/
theorem node (m : TreeM NodeId) : Opens nesting (do return [← Document.shape m]) .nil :=
  (shape m).bind fun _ => .pure _

private theorem operator (name : String) : Opens nesting (operator name) .nil := by
  unfold Document.operator
  split
  · exact .pure _
  · exact .throw _

private theorem asOne (nodes : List NodeId) (line : Nat) :
    Opens nesting (asOne nodes line) .nil := by
  unfold Document.asOne
  split
  · exact .pure _
  · exact shape _

private theorem nested {m : DocumentM (List NodeId)} (line : Nat) (hm : Opens (nesting + 1) m ns) :
    Opens nesting (nested line m) ns := hm.deeper.ending fun nodes => asOne nodes line

private theorem nestedBlock {m : DocumentM (List NodeId)} (line : Nat)
    (hm : Opens (nesting + 1) m ns) :
    Opens nesting (nestedBlock line m) ns := hm.deeper.ending fun _ => .shape _

/-- A step of the builder comes last. -/
theorem onBuilder_last {g : α → BuildM β} {p : β → Builder → Prop} (hm : Opens nesting m ns)
    (hb : b.current.index < b.outlines.length) (hg : ∀ a b', b.Gains ns b' → Ends (g a) b' p) :
    Ends (m >>= fun a => onBuilder (g a)).run ⟨b, nesting⟩ fun r player =>
      player.nesting = nesting ∧ ∀ c, r = .ok c → p c player.builder := by
  rw [ExceptT.run_bind]
  refine (hm b).bind ?_
  rintro r ⟨b', _⟩ ⟨rfl, h⟩
  cases r with
  | error e => exact Ends.pure ⟨rfl, nofun⟩
  | ok a =>
    refine (ends_onBuilder (hg a b' (h hb a rfl))).mono fun _ _ ⟨hdepth, _, hc, hp⟩ => ⟨hdepth, ?_⟩
    rintro _ rfl
    cases hc
    exact hp

/-- A function is opened, its statements are built, and it is closed. -/
theorem function {p : Position} {name : String} {params : List String} {body : List Stmt}
    {line endLine : Nat} {source : Option String} {inner : Nests}
    (h : Opens 0 (buildStmts body) inner) :
    Opens nesting (buildFunction p.functionType (.mk name params body line endLine source))
      (.cons p name line inner .nil) := by
  intro b
  rw [buildFunction]
  refine ends_onBuilder_bind (ends_beginFunction name _ line) ?_
  rintro id b1 ⟨rfl, hopened1, houtlines1⟩
  -- from here on the function is the current one
  have hclose (b2 : Builder) (h2 : b2.view = b1.view) : Ends (do
      let statements ← Document.afresh (buildStmts body)
      onBuilder (Builder.finishFunction ⟨b.outlines.length⟩ statements endLine) :
        DocumentM NodeId).run ⟨b2, nesting⟩ fun r player => player.nesting = nesting ∧
          (b.current.index < b.outlines.length → ∀ a, r = .ok a →
            b.Gains (.cons p name line inner .nil) player.builder) := by
    obtain ⟨houtlines2, hopened2⟩ := Prod.mk.inj h2
    rw [houtlines1] at houtlines2
    rw [hopened1] at hopened2
    have hcurrent : b2.current = ⟨b.outlines.length⟩ := by rw [current, hopened2]; rfl
    refine (h.afresh.onBuilder_last (p := fun _ b' => b.current.index < b.outlines.length →
      b.Gains (.cons p name line inner .nil) b') (by simp [hcurrent, houtlines2])
      fun statements b3 ⟨hopened3, houtlines3⟩ => ?_).mono
        fun _ _ ⟨hdepth, h⟩ => ⟨hdepth, fun hb a ha => h a ha hb⟩
    refine (ends_finishFunction (hopened3.trans hopened2) statements endLine).mono ?_
    rintro _ b4 ⟨hopened4, houtlines4⟩ hb
    refine ⟨hopened4, ?_⟩
    rw [houtlines4, houtlines3, hcurrent, houtlines2, modify_concat, List.append_assoc,
      ← current, modify_append _ hb]
    simp [Outline.list, Nests.ids, Nests.outlines]
  refine ends_onBuilder_bind (Steady.forM steady_addParam params _) fun _ b2 h2 => ?_
  split
  · exact ends_onBuilder_bind (steady_setSource _ _ _) fun _ b3 h3 => hclose b3 (h3.trans h2)
  · exact hclose b2 h2

end Opens

mutual

/-- Expressions. -/
theorem opens_expr (nesting : Nat) : ∀ e : Expr, Opens nesting (buildExpr e) e.functions
  | .name _ | .string _ | .number _ | .boolean _ | .null | .receiver =>
    .shape _
  | .regExp pattern flags =>
    .steady (steady_regExp pattern flags)
  | .unary op operand =>
    (Opens.operator op).bind fun _ => (opens_expr _ operand).ending fun _ => .shape _
  | .binary op left right =>
    (Opens.operator op).bind fun _ => (opens_expr _ left).bind fun _ =>
      (opens_expr _ right).ending fun _ => .shape _
  | .member object _ | .delete object =>
    (opens_expr _ object).ending fun _ => .shape _
  | .element object index =>
    (opens_expr _ object).bind fun _ => (opens_expr _ index).ending fun _ => .shape _
  | .assign target value =>
    (opens_expr _ target).bind fun _ => (opens_expr _ value).ending fun _ => .checkedShape _
  | .call callee args | .new callee args =>
    (opens_expr _ callee).bind fun _ => (opens_exprs _ args).ending fun _ => .shape _
  | .function (.mk _ _ body _ _ _) =>
    .function (p := .expression) (opens_stmts [] body)

theorem opens_exprs (nesting : Nat) :
    ∀ es : List Expr, Opens nesting (buildExprs es) (exprsFunctions es)
  | [] =>
    .pure _
  | e :: rest =>
    (opens_expr _ e).bind fun _ => (opens_exprs _ rest).ending fun _ => .pure _

theorem opens_optExpr (nesting : Nat) :
    ∀ e : Option Expr, Opens nesting (buildOptExpr e) (optExprFunctions e)
  | none =>
    .pure _
  | some e =>
    (opens_expr _ e).map _

/-- Statements. -/
theorem opens_stmt (around : List Construct) :
    ∀ s : Stmt, Opens (depth around) (buildStmt s) (s.functions around)
  | .expr expr _ =>
    (opens_expr _ expr).ending fun _ => .node _
  | .var decls _ =>
    (Opens.shape _).bind fun node => (opens_decls _ node decls).ending fun _ => .pure _
  | .block body line =>
    (Opens.nestedBlock line (opens_stmts (.block :: around) body)).ending fun _ => .pure _
  | .ifElse cond yes no line =>
    (opens_expr _ cond).bind fun _ =>
      (Opens.nested line (opens_stmt (.branch :: around) yes)).bind fun _ =>
        (opens_optStmt around line no).ending fun _ => .node _
  | .whileLoop cond body line =>
    (opens_expr _ cond).bind fun _ =>
      (Opens.nested line (opens_stmt (.loop :: around) body)).ending fun _ => .node _
  | .doWhile body cond line =>
    (Opens.nested line (opens_stmt (.loop :: around) body)).bind fun _ =>
      (opens_expr _ cond).ending fun _ => .node _
  | .forLoop init cond step body line =>
    (opens_optHead _ (.loop :: around) init).bind fun _ => (opens_optExpr _ cond).bind fun _ =>
      (opens_optExpr _ step).bind fun _ =>
        (Opens.nested line (opens_stmt (.loop :: around) body)).ending fun _ => .node _
  | .forIn left object body line =>
    (opens_head _ (.loop :: around) left).bind fun _ => (opens_expr _ object).bind fun _ =>
      (Opens.nested line (opens_stmt (.loop :: around) body)).ending fun _ =>
        (Opens.checkedShape _).bind fun _ => .pure _
  | .ret value _ =>
    (opens_optExpr _ value).ending fun _ => .node _
  | .throw value _ =>
    (opens_expr _ value).ending fun _ => .node _
  | .breakTo .. | .continueTo .. =>
    .node _
  | .labelled _ body _ =>
    (Opens.shape _).bind fun _ => (opens_stmt (.label :: around) body).ending fun _ => .pure _
  | .switch selector cases _ =>
    (opens_expr _ selector).bind fun _ => (Opens.shape _).bind fun node =>
      (opens_cases (.switch :: around) node cases).deeper.ending fun _ => .pure _
  | .tryCatch block handlers final line =>
    (Opens.nestedBlock line (opens_stmts (.attempt :: around) block)).bind fun _ =>
      (opens_handlers around handlers).bind fun _ =>
        (opens_optBlock around line final).ending fun _ => .node _
  | .withScope object body line =>
    (opens_expr _ object).bind fun _ =>
      (Opens.nested line (opens_stmt (.withScope :: around) body)).ending fun _ => .node _
  | .function (.mk _ _ body _ _ _) => by
    rw [buildStmt]
    split
    · exact .throw _
    · refine .get_bind fun _ => ?_
      have htype : (if depth around = 0 then FunctionType.statement else .expressionStatement) =
          (Position.statement around).functionType := by simp [Position.functionType, depth_eq_zero]
      rw [htype]
      exact (Opens.function (opens_stmts [] body)).ending fun _ => .pure _

private theorem opens_stmts (around : List Construct) :
    ∀ ss : List Stmt, Opens (depth around) (buildStmts ss) (stmtsFunctions around ss)
  | [] =>
    .pure _
  | s :: rest =>
    (opens_stmt around s).bind fun _ => (opens_stmts around rest).ending fun _ => .pure _

theorem opens_optStmt (around : List Construct) (line : Nat) :
    ∀ s : Option Stmt, Opens (depth around) (buildOptStmt line s)
      (optStmtFunctions (.branch :: around) s)
  | none =>
    .pure _
  | some s =>
    (Opens.nested line (opens_stmt (.branch :: around) s)).map _

theorem opens_optBlock (around : List Construct) (line : Nat) : ∀ body : Option (List Stmt),
    Opens (depth around) (buildOptBlock line body) (optStmtsFunctions (.attempt :: around) body)
  | none =>
    .pure _
  | some body =>
    (Opens.nestedBlock line (opens_stmts (.attempt :: around) body)).map _

/-- The variables of a statement. -/
theorem opens_decls (nesting : Nat) (statement : NodeId) :
    ∀ decls : List Declarator, Opens nesting (buildDecls statement decls) (declsFunctions decls)
  | [] =>
    .pure _
  | .mk name init :: rest =>
    (opens_optExpr _ init).bind fun _ =>
      (Opens.steady (steady_addVar statement name _)).bind fun _ =>
        opens_decls _ statement rest

/-- What stands at the head of a loop. -/
theorem opens_head (nesting : Nat) (around : List Construct) :
    ∀ s : Stmt, Opens nesting (buildHead s) (s.functions around)
  | .var decls _ =>
    (Opens.shape _).bind fun node => (opens_decls _ node decls).ending fun _ => .pure _
  | .expr expr _ =>
    opens_expr _ expr
  | .block .. | .ifElse .. | .whileLoop .. | .doWhile .. | .forLoop ..
  | .forIn .. | .ret .. | .throw ..
  | .breakTo .. | .continueTo .. | .labelled .. | .switch .. | .tryCatch .. | .withScope ..
  | .function .. => by
    rw [buildHead] <;> first | exact .throw _ | simp

theorem opens_optHead (nesting : Nat) (around : List Construct) :
    ∀ s : Option Stmt, Opens nesting (buildOptHead s) (optStmtFunctions around s)
  | none =>
    .pure _
  | some s =>
    (opens_head _ around s).map _

/-- The clauses of a switch. -/
theorem opens_cases (around : List Construct) (switch : NodeId) : ∀ cases : List SwitchCase,
    Opens (depth around) (buildCases switch cases) (casesFunctions around cases)
  | [] =>
    .pure _
  | .mk test body :: rest => by
    rw [buildCases]
    refine (opens_stmts around body).bind fun _ => (opens_optExpr _ test).bind fun test => ?_
    cases test <;> exact ((Opens.shape _).map _).bind fun _ => opens_cases around switch rest

/-- The clauses that catch. -/
theorem opens_handlers (around : List Construct) : ∀ handlers : List Handler,
    Opens (depth around) (buildHandlers handlers) (handlersFunctions (.attempt :: around) handlers)
  | [] =>
    .pure _
  | .mk _ guard body line :: rest =>
    (opens_optExpr _ guard).bind fun _ =>
      (Opens.nestedBlock line (opens_stmts (.attempt :: around) body)).bind fun _ =>
        (opens_handlers around rest).ending fun _ => .pure _

end

/-- The bodies of a program are the script and the functions of its document. -/
theorem build_outlines {p : Program} (hbuild : build script fallback = .ok (.ok p)) :
    p.outlines = ⟨(none, "", none), none, script.functions.ids 1⟩ ::
      script.functions.outlines .script 1 := by
  obtain ⟨⟨r, b⟩, hrun, hr⟩ := Stepwise.exists_of_bind (n := Except Fault)
    ((map_eq_pure_bind _ _).symm.trans hbuild)
  cases hr
  have hends :=
    (opens_stmts [] script.body).onBuilder_last (b := .start (script.source <|> fallback))
    (p := fun q _ => q.outlines = _) Nat.zero_lt_one fun statements b' h =>
      (ends_finishScript statements script.endLine).mono fun q _ hq => hq.trans h.outlines_eq
  exact (hends _ _ hrun).2 p rfl

/-- Whatever statements are played, the depth is the same before and behind them. -/
theorem steady_stmts (body : List Stmt) : Steady Player.nesting (buildStmts body).run := by
  rintro ⟨b, nesting⟩
  have hopens := opens_stmts (List.replicate nesting .block) body
  rw [depth_replicate] at hopens
  exact (hopens b).mono fun _ _ h => h.1

/-- The document is built to a program that passes a test. -/
def buildsTo (script : Script) (fallback : Option String) (test : Program → Bool) : Bool :=
  match build script fallback with
  | .ok (.ok p) => test p
  | _ => false

/-- A document that is built to something has been built. -/
theorem exists_buildsTo {test : Program → Bool} (h : buildsTo script fallback test) :
    ∃ p, build script fallback = .ok (.ok p) ∧ test p := by
  unfold buildsTo at h
  split at h
  · next p hbuild => exact ⟨p, hbuild, h⟩
  · cases h

end Document

/-- The bodies that are built for a script are its own and, in the order of their beginnings, those
of its functions: each has the type that the position of the function asks for. What comes before a
statement does not matter for the functions in it: at any depth, statements that are played leave
the depth as it is, whether or not they are refused. -/
theorem function_types_follow_positions {script : Script} {fallback : Option String} {p : Program}
    (hbuild : build script fallback = .ok (.ok p)) :
    p.bodies.toList.map Body.header = (none, "", none) :: script.functions.headers ∧
      (∀ before after, script.body = before ++ after →
        (p.bodies.toList.drop (1 + (stmtsFunctions [] before).headers.length)).map Body.header =
          (stmtsFunctions [] after).headers) ∧
      ∀ body : List Stmt, Steady Player.nesting (buildStmts body).run := by
  have hall : p.bodies.toList.map Body.header = (none, "", none) :: script.functions.headers := by
    have := congrArg (List.map Outline.header) (build_outlines hbuild)
    rwa [Program.outlines, List.map_map, List.map_cons, Nests.header_outlines] at this
  refine ⟨hall, fun before after hbody => ?_, steady_stmts⟩
  rw [List.map_drop, hall, Script.functions, hbody, stmtsFunctions_append, Nests.headers_append,
    Nat.add_comm, List.drop_succ_cons, List.drop_left]

/-- Functions behind a label, in a block, in an expression and in another function. -/
theorem function_types_follow_positions_of_label :
    let script : Script := ⟨none, [.labelled "l" (.function (.mk "a" [] [] 1 1 none)) 1,
      .block [.function (.mk "b" [] [] 2 2 none)] 2,
      .function (.mk "c" [] [.expr (.function (.mk "" [] [] 3 3 none)) 3] 3 3 none)], 3⟩
    ∃ p, build script none = .ok (.ok p) ∧ p.bodies.toList.map Body.functionType =
      [none, some .statement, some .expressionStatement, some .statement, some .expression] := by
  intro script
  have hmade : buildsTo script none fun _ => true := by decide +kernel
  obtain ⟨p, hbuild, -⟩ := exists_buildsTo hmade
  have htypes := congrArg (List.map Prod.fst) (function_types_follow_positions hbuild).1
  rw [List.map_map] at htypes
  exact ⟨p, hbuild, htypes⟩

end ScriptEngine
