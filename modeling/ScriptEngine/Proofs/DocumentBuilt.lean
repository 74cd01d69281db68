import ScriptEngine.Proofs.DocumentParts

/-!
# Programs of documents are built

A document may name any token where it names an operator. If it only names operators there, every
body of its program stands over statements of the grammar `Built`.

## Key results

- `Document.makes_expr`, `Document.makes_stmt`: what the parts of a document leave behind
- `Document.build_framed`: the bodies of a program
-/

namespace ScriptEngine

open Shape Builder List Forest

variable {kind : Token} {name : String} {P : Parts}

namespace Token

/-- The operators before or behind one operand. -/
def unaryOperators : List Token := [.not, .bitNot, .pos, .neg, .typeOf, .void, .inc, .dec]

/-- The operators between two operands. -/
def binaryOperators : List Token :=
  [.add, .sub, .mul, .div, .mod, .bitOr, .bitXor, .bitAnd, .lsh, .rsh, .ursh, .eq, .ne, .lt, .le,
    .gt, .ge, .strictEq, .strictNe, .inOp, .instanceOf, .and, .or, .comma]

private theorem isOperator_of_unary (h : kind ∈ unaryOperators) : kind.IsOperator := by
  simp only [unaryOperators, mem_cons, not_mem_nil, or_false] at h
  rcases h with rfl | rfl | rfl | rfl | rfl | rfl | rfl | rfl <;>
    exact ⟨rfl, rfl, rfl, by decide, rfl⟩

private theorem isOperator_of_binary (h : kind ∈ binaryOperators) : kind.IsOperator := by
  simp only [binaryOperators, mem_cons, not_mem_nil, or_false] at h
  rcases h with rfl | rfl | rfl | rfl | rfl | rfl | rfl | rfl | rfl | rfl | rfl | rfl | rfl | rfl |
    rfl | rfl | rfl | rfl | rfl | rfl | rfl | rfl | rfl | rfl <;>
      exact ⟨rfl, rfl, rfl, by decide, rfl⟩

end Token

/-- An arena without nodes. -/
theorem Tree.linked_empty : ({} : Tree).Linked :=
  (Linked.of_lists (fun _ => []) (fun _ => by rw [segment_nil]; rfl) (fun _ => rfl) (by simp)
  (by simp) (by simp)
    fun _ _ => rfl).1

namespace Document

/-! ## Operators of a document -/

/-- A name is that of one of some tokens. -/
def namesOneOf (tokens : List Token) (name : String) : Bool :=
  (Token.ofName? name).any (tokens.contains ·)

mutual

/-- Every operator that an expression names is one. -/
def Expr.usesOperators : Expr → Bool
  | .name _ | .string _ | .number _ | .boolean _ | .null | .receiver | .regExp _ _ => true
  | .unary op operand => namesOneOf Token.unaryOperators op && operand.usesOperators
  | .binary op left right =>
    namesOneOf Token.binaryOperators op && left.usesOperators && right.usesOperators
  | .member object _ => object.usesOperators
  | .element object index => object.usesOperators && index.usesOperators
  | .assign target value => target.usesOperators && value.usesOperators
  | .delete target => target.usesOperators
  | .call callee args | .new callee args => callee.usesOperators && exprsUseOperators args
  | .function definition => definition.usesOperators

def exprsUseOperators : List Expr → Bool
  | [] => true
  | e :: rest => e.usesOperators && exprsUseOperators rest

def optExprUsesOperators : Option Expr → Bool
  | none => true
  | some e => e.usesOperators

def FunctionDef.usesOperators : FunctionDef → Bool
  | .mk _ _ body _ _ _ => stmtsUseOperators body

/-- Every operator that a statement names is one. -/
def Stmt.usesOperators : Stmt → Bool
  | .expr expr _ => expr.usesOperators
  | .var decls _ => declsUseOperators decls
  | .block body _ => stmtsUseOperators body
  | .ifElse cond yes no _ => cond.usesOperators && yes.usesOperators && optStmtUsesOperators no
  | .whileLoop cond body _ | .doWhile body cond _ => cond.usesOperators && body.usesOperators
  | .forLoop init cond step body _ => optStmtUsesOperators init && optExprUsesOperators cond &&
      optExprUsesOperators step && body.usesOperators
  | .forIn left object body _ => left.usesOperators && object.usesOperators && body.usesOperators
  | .ret value _ => optExprUsesOperators value
  | .throw value _ => value.usesOperators
  | .breakTo _ _ | .continueTo _ _ => true
  | .labelled _ body _ => body.usesOperators
  | .switch selector cases _ => selector.usesOperators && casesUseOperators cases
  | .tryCatch block handlers final _ =>
    stmtsUseOperators block && handlersUseOperators handlers && optStmtsUseOperators final
  | .withScope object body _ => object.usesOperators && body.usesOperators
  | .function definition => definition.usesOperators

def stmtsUseOperators : List Stmt → Bool
  | [] => true
  | s :: rest => s.usesOperators && stmtsUseOperators rest

def optStmtUsesOperators : Option Stmt → Bool
  | none => true
  | some s => s.usesOperators

def optStmtsUseOperators : Option (List Stmt) → Bool
  | none => true
  | some body => stmtsUseOperators body

def declsUseOperators : List Declarator → Bool
  | [] => true
  | .mk _ init :: rest => optExprUsesOperators init && declsUseOperators rest

def casesUseOperators : List SwitchCase → Bool
  | [] => true
  | .mk test body :: rest =>
    optExprUsesOperators test && stmtsUseOperators body && casesUseOperators rest

def handlersUseOperators : List Handler → Bool
  | [] => true
  | .mk _ guard body _ :: rest =>
    optExprUsesOperators guard && stmtsUseOperators body && handlersUseOperators rest

end

/-- Every operator that a script names is one. -/
def Script.usesOperators (script : Script) : Bool := stmtsUseOperators script.body

private theorem of_namesOneOf {tokens : List Token}
    (h : namesOneOf tokens name) (hkind : Token.ofName? name = some kind) : kind ∈ tokens := by
  simpa [namesOneOf, hkind] using h

/-! ## Expressions -/

section

variable {α : Type} {Q : α → Parts}

/-- An operator is looked up. -/
theorem Makes.operator {f : Token → DocumentM α}
    (h : ∀ kind, Token.ofName? name = some kind → Makes P (f kind) Q) :
    Makes P (Document.operator name >>= f) Q := by
  unfold Document.operator
  cases hname : Token.ofName? name with
  | none => exact Makes.throw
  | some kind => exact h kind hname

end

private theorem makes_regExp (source flags : String) :
    Makes .none (onBuilder (Builder.regExp source flags)) .expr :=
  fun _ hb _ => Builds.onBuilder (runs_regExp hb)

/-! ## Functions -/

/-- A function is opened, its statements are built inside it, and it is closed over them. -/
theorem makes_function {functionType : FunctionType} {params : List String} {body : List Stmt}
    {line endLine : Nat} {source : Option String} (hbody : Makes .none (buildStmts body) .list) :
    Makes .none (buildFunction functionType (.mk name params body line endLine source)) .expr := by
  intro b hb _
  rw [buildFunction]
  refine Builds.bind (Builds.onBuilder (runs_beginFunction hb)) ?_
  rintro id b1 ⟨hopen, hf1, he1, hvars⟩
  have hready : b1.Ready := ⟨hf1, by simp [hopen]⟩
  have hcur : b1.current = id := by simp [current, hopen]
  refine Builds.bind (Builds.onBuilder (runs_addParams params hready ?_)) ?_
  · rw [hcur, hvars]
    rfl
  intro _ b2 hk2
  have hinner : ∀ b3, b1.Keeps [] b3 → Builds (do
      let statements ← afresh (buildStmts body)
      onBuilder (Builder.finishFunction id statements endLine)) b3 fun node b' =>
        b.Leaves [] (.expr node) b' := by
    intro b3 hk3
    refine (hbody.afresh b3 (hk3.ready hready) (Program.has_none _)).bind ?_
    rintro statements b4 ⟨hlist, hk4, hnew⟩
    have hopen4 : b4.opened = id :: b.opened := by rw [hk4.opened_eq, hk3.opened_eq, hopen]
    refine Builds.onBuilder ((runs_finishFunction hk4.framed hopen4 hb.opened_ne hlist).mono ?_)
    rintro node b5 ⟨⟨hexpr, hfresh⟩, hopen5, hf5, he5⟩
    have he3 : Builder.Extends [] b b3 := he1.trans hk3.toExtends (by simp)
    have he4 : Builder.Extends [] b b4 := he3.trans hk4.toExtends fun r hr _ =>
      hr.resolve_left not_mem_nil
    refine ⟨hexpr, ⟨he4.trans he5 fun r hr hlt => ?_, hf5, hopen5⟩, fun r hr => .inr ?_⟩
    · have hle := he3.tree.size_le
      have := (hnew r (hr.resolve_left not_mem_nil)).resolve_left not_mem_nil
      omega
    · rw [mem_singleton.mp hr]
      exact Nat.le_trans he4.tree.size_le hfresh
  cases source with
  | none => exact hinner b2 hk2
  | some source =>
    have hid : id.index < b2.program.bodies.size := by
      refine Nat.lt_of_lt_of_le (hf1.opened_lt id ?_) hk2.bodies_le
      simp [hopen]
    exact Builds.bind (Builds.onBuilder (runs_setSource hk2.framed hid)) fun _ b3 hk3 =>
      hinner b3 (hk2.trans_nil hk3)

/-! ## Statements -/

private theorem makes_asOne (nodes : List NodeId) (line : Nat) :
    Makes (.statement nodes) (asOne nodes line) .node := by
  unfold asOne
  split
  · exact .pure fun _ _ h => h.of_statement
  · refine .shape fun limits f t0 used t hf H => ?_
    exact (crafts_block hf.list_of_statement H).mono fun _ _ ⟨g, hg, H⟩ => ⟨g, hg.of_block, H⟩

private theorem makes_nested {m : DocumentM (List NodeId)} (line : Nat)
    (hm : Makes .none m .statement) :
    Makes .none (nested line m) .node := hm.deeper.bind fun nodes => makes_asOne nodes line

private theorem makes_nestedBlock {m : DocumentM (List NodeId)} (line : Nat)
    (hm : Makes .none m .list) :
    Makes .none (nestedBlock line m) .block := hm.deeper.bind fun _ => .shape crafts_block

/-- A statement of one node. -/
theorem Makes.single {m : DocumentM NodeId} (hm : Makes P m .node) :
    Makes P (do let node ← m; return [node]) .statement :=
  hm.bind fun _ => .pure fun _ _ h => h.statement

private theorem makes_addVar (statement : NodeId) (name : String) (init : Option NodeId) :
    Makes ((Parts.var statement).and (.opt .expr init))
      (onBuilder (Builder.addVar statement name init)) fun _ => .var statement :=
  fun _ hb hP => Builds.onBuilder (runs_addVar hb hP)

/-! ## Documents -/

mutual

/-- Expressions. -/
theorem makes_expr : ∀ e : Expr, e.usesOperators → Makes .none (buildExpr e) .expr
  | .name name, _ => by
    rw [buildExpr]
    exact .shape (crafts_name name)
  | .string value, _ => by
    rw [buildExpr]
    exact .shape (crafts_string value)
  | .number value, _ => by
    rw [buildExpr]
    exact .shape (crafts_push rfl (fun _ => .fresh rfl rfl) fun _ _ =>
      .operation .nil ⟨rfl, rfl, rfl, ⟨value, rfl⟩, nofun, rfl, nofun⟩)
  | .boolean value, _ => by
    rw [buildExpr]
    cases value <;> exact .shape (crafts_atom ⟨rfl, rfl, rfl, nofun, rfl⟩)
  | .null, _ => by
    rw [buildExpr]
    exact .shape (crafts_atom ⟨rfl, rfl, rfl, nofun, rfl⟩)
  | .receiver, _ => by
    rw [buildExpr]
    exact .shape (crafts_atom ⟨rfl, rfl, rfl, nofun, rfl⟩)
  | .regExp pattern flags, _ => by
    rw [buildExpr]
    exact makes_regExp pattern flags
  | .unary op operand, h => by
    rw [buildExpr]
    rw [Expr.usesOperators, Bool.and_eq_true] at h
    refine .operator fun kind hkind => (makes_expr operand h.2).bind fun operand => ?_
    exact .shape (crafts_unary (Token.isOperator_of_unary (of_namesOneOf h.1 hkind)))
  | .binary op left right, h => by
    rw [buildExpr]
    rw [Expr.usesOperators, Bool.and_eq_true, Bool.and_eq_true] at h
    refine .operator fun kind hkind => (makes_expr left h.1.2).bind fun left => ?_
    refine (makes_expr right h.2).more.bind fun right => ?_
    exact .shape (crafts_binary (Token.isOperator_of_binary (of_namesOneOf h.1.1 hkind)))
  | .member object property, h => by
    rw [buildExpr]
    exact (makes_expr object h).bind fun object => .shape (crafts_getProp property)
  | .element object index, h => by
    rw [buildExpr]
    rw [Expr.usesOperators, Bool.and_eq_true] at h
    exact (makes_expr object h.1).bind fun object => (makes_expr index h.2).more.bind fun index =>
      .shape (crafts_access (.inr rfl))
  | .assign target value, h => by
    rw [buildExpr]
    rw [Expr.usesOperators, Bool.and_eq_true] at h
    exact (makes_expr target h.1).bind fun target => (makes_expr value h.2).more.bind fun value =>
      .checkedShape crafts_assignment
  | .delete target, h => by
    rw [buildExpr]
    exact (makes_expr target h).bind fun target => .shape crafts_delete
  | .call callee args, h => by
    rw [buildExpr]
    rw [Expr.usesOperators, Bool.and_eq_true] at h
    exact (makes_expr callee h.1).bind fun callee => (makes_exprs args h.2).more.bind fun args =>
      .shape (crafts_invocation (.inl rfl))
  | .new callee args, h => by
    rw [buildExpr]
    rw [Expr.usesOperators, Bool.and_eq_true] at h
    exact (makes_expr callee h.1).bind fun callee => (makes_exprs args h.2).more.bind fun args =>
      .shape (crafts_invocation (.inr rfl))
  | .function definition, h => by
    rw [buildExpr]
    exact makes_functionDef .expression definition h

theorem makes_exprs : ∀ es : List Expr, exprsUseOperators es → Makes .none (buildExprs es) .exprs
  | [], _ => by
    rw [buildExprs]
    exact .pure fun _ _ h => ⟨h.1, eq_nil_of_roots h.1 ▸ .nil⟩
  | e :: rest, h => by
    rw [buildExprs]
    rw [exprsUseOperators, Bool.and_eq_true] at h
    refine (makes_expr e h.1).bind fun node => (makes_exprs rest h.2).more.bind fun nodes => ?_
    refine .pure ?_
    rintro limits _ ⟨hroots, f, g, rfl, hf, hg⟩
    exact ⟨hroots, hf.2.list.append hg.2⟩

theorem makes_optExpr : ∀ e : Option Expr, optExprUsesOperators e →
    Makes .none (buildOptExpr e) (.opt .expr)
  | none, _ => by
    rw [buildOptExpr]
    exact .pure fun _ _ h => h
  | some e, h => by
    rw [buildOptExpr]
    exact .map (makes_expr e h)

theorem makes_functionDef (functionType : FunctionType) : ∀ definition : FunctionDef,
    definition.usesOperators → Makes .none (buildFunction functionType definition) .expr
  | .mk _ _ body _ _ _, h => makes_function (makes_stmts body h)

/-- Statements. -/
theorem makes_stmt : ∀ s : Stmt, s.usesOperators →
    Makes .none (buildStmt s) .statement
  | .expr expr line, h => by
    rw [buildStmt]
    exact (makes_expr expr h).bind fun expr => .single (.shape crafts_exprStatement)
  | .var decls line, h => by
    rw [buildStmt]
    refine (Makes.shape crafts_newVar).bind fun node => (makes_decls node decls h).bind fun _ => ?_
    exact .pure fun _ _ hP => hP.of_var.statement
  | .block body line, h => by
    rw [buildStmt]
    refine (makes_nestedBlock line (makes_stmts body h)).bind fun block => ?_
    exact .pure fun _ _ hP => hP.of_block.statement
  | .ifElse cond yes no line, h => by
    rw [buildStmt]
    rw [Stmt.usesOperators, Bool.and_eq_true, Bool.and_eq_true] at h
    refine (makes_expr cond h.1.1).bind fun cond => ?_
    refine (makes_nested line (makes_stmt yes h.1.2)).more.bind fun yes => ?_
    refine (makes_optStmt line no h.2).more.bind fun no => ?_
    exact .single (.shape crafts_ifElse)
  | .whileLoop cond body line, h => by
    rw [buildStmt]
    rw [Stmt.usesOperators, Bool.and_eq_true] at h
    refine (makes_expr cond h.1).bind fun cond => ?_
    exact (makes_nested line (makes_stmt body h.2)).more.bind fun body =>
      .single (.shape crafts_while)
  | .doWhile body cond line, h => by
    rw [buildStmt]
    rw [Stmt.usesOperators, Bool.and_eq_true] at h
    refine (makes_nested line (makes_stmt body h.2)).bind fun body => ?_
    exact (makes_expr cond h.1).more.bind fun cond => .single (.shape crafts_while.swap)
  | .forLoop init cond step body line, h => by
    rw [buildStmt]
    rw [Stmt.usesOperators, Bool.and_eq_true, Bool.and_eq_true, Bool.and_eq_true] at h
    refine (makes_optHead init h.1.1.1).bind fun init => ?_
    refine (makes_optExpr cond h.1.1.2).more.bind fun cond => ?_
    refine (makes_optExpr step h.1.2).more.bind fun step => ?_
    exact (makes_nested line (makes_stmt body h.2)).more.bind fun body =>
      .single (.shape crafts_loop)
  | .forIn left object body line, h => by
    rw [buildStmt]
    rw [Stmt.usesOperators, Bool.and_eq_true, Bool.and_eq_true] at h
    refine (makes_head left h.1.1).bind fun left => ?_
    refine (makes_expr object h.1.2).more.bind fun object => ?_
    exact (makes_nested line (makes_stmt body h.2)).more.bind fun body =>
      .single (.checkedShape crafts_forIn)
  | .ret value line, h => by
    rw [buildStmt]
    exact (makes_optExpr value h).bind fun value => .single (.shape crafts_ret)
  | .throw value line, h => by
    rw [buildStmt]
    exact (makes_expr value h).bind fun value => .single (.shape crafts_throwing)
  | .breakTo label line, _ => by
    rw [buildStmt]
    exact .single (.shape (crafts_jump (.inl rfl)))
  | .continueTo label line, _ => by
    rw [buildStmt]
    exact .single (.shape (crafts_jump (.inr rfl)))
  | .labelled label body line, h => by
    rw [buildStmt]
    refine (Makes.shape crafts_label).bind fun node =>
      (makes_stmt body h).more.bind fun nodes => ?_
    refine .pure ?_
    rintro limits _ ⟨hroots, _, _, rfl, ⟨-, ⟨a, rfl⟩, ha⟩, -, labels, g, rfl, hg, hp⟩
    exact ⟨hroots, a :: labels, g, rfl, hg, ha.cons hp⟩
  | .switch selector cases line, h => by
    rw [buildStmt]
    rw [Stmt.usesOperators, Bool.and_eq_true] at h
    refine (makes_expr selector h.1).bind fun selector => ?_
    refine (Makes.shape crafts_switch).bind fun node => ?_
    refine (makes_cases node cases h.2).deeper.bind fun _ => ?_
    exact .pure fun _ _ hP => hP.of_switch.statement
  | .tryCatch block handlers final line, h => by
    rw [buildStmt]
    rw [Stmt.usesOperators, Bool.and_eq_true, Bool.and_eq_true] at h
    refine (makes_nestedBlock line (makes_stmts block h.1.1)).bind fun block => ?_
    refine (makes_handlers handlers h.1.2).more.bind fun clauses => ?_
    refine (makes_optBlock line final h.2).more.bind fun final => ?_
    exact .single (.shape crafts_tryStatement)
  | .withScope object body line, h => by
    rw [buildStmt]
    rw [Stmt.usesOperators, Bool.and_eq_true] at h
    refine (makes_expr object h.1).bind fun object => ?_
    refine (makes_nested line (makes_stmt body h.2)).more.bind fun body =>
      .single (.shape (crafts_withScope.of ?_))
    rintro limits _ ⟨hroots, f, g, rfl, hf, hg⟩
    exact ⟨hroots, f, g, rfl, hf, hg.1, hg.2.anywhere⟩
  | .function definition, h => by
    rw [buildStmt]
    split
    · exact .throw
    · refine .get_bind fun _ => (makes_functionDef _ definition h).bind fun node => ?_
      exact .pure fun _ _ hP => Parts.Holds.statement ⟨hP.1, hP.2.made⟩

private theorem makes_stmts : ∀ body : List Stmt, stmtsUseOperators body →
    Makes .none (buildStmts body) .list
  | [], _ => by
    rw [buildStmts]
    exact .pure fun _ _ h => ⟨h.1, eq_nil_of_roots h.1 ▸ .nil⟩
  | s :: rest, h => by
    rw [buildStmts]
    rw [stmtsUseOperators, Bool.and_eq_true] at h
    refine (makes_stmt s h.1).bind fun nodes => ?_
    refine (makes_stmts rest h.2).more.bind fun more => ?_
    refine .pure ?_
    rintro limits _ ⟨hroots, f, g, rfl, hf, hg⟩
    exact ⟨hroots, hf.list_of_statement.2.append hg.2⟩

theorem makes_optStmt (line : Nat) : ∀ s : Option Stmt, optStmtUsesOperators s →
    Makes .none (buildOptStmt line s) (.opt .node)
  | none, _ => by
    rw [buildOptStmt]
    exact .pure fun _ _ h => h
  | some s, h => by
    rw [buildOptStmt]
    exact .map (makes_nested line (makes_stmt s h))

theorem makes_optBlock (line : Nat) : ∀ body : Option (List Stmt),
    optStmtsUseOperators body → Makes .none (buildOptBlock line body) (.opt .block)
  | none, _ => by
    rw [buildOptBlock]
    exact .pure fun _ _ h => h
  | some body, h => by
    rw [buildOptBlock]
    exact .map (makes_nestedBlock line (makes_stmts body h))

/-- The variables of a statement. -/
theorem makes_decls (statement : NodeId) : ∀ decls : List Declarator, declsUseOperators decls →
    Makes (.var statement) (buildDecls statement decls) fun _ => .var statement
  | [], _ => by
    rw [buildDecls]
    exact .pure fun _ _ h => h
  | .mk name init :: rest, h => by
    rw [buildDecls]
    rw [declsUseOperators, Bool.and_eq_true] at h
    refine (makes_optExpr init h.1).more.bind fun init => ?_
    exact (makes_addVar statement name init).bind fun _ => makes_decls statement rest h.2

/-- What stands at the head of a loop. -/
theorem makes_head : ∀ s : Stmt, s.usesOperators → Makes .none (buildHead s) .head
  | .var decls line, h => by
    rw [buildHead]
    refine (Makes.shape crafts_newVar).bind fun node => (makes_decls node decls h).bind fun _ => ?_
    exact .pure fun _ _ hP => ⟨hP.1, .inr hP.2⟩
  | .expr expr _, h => by
    rw [buildHead, ← bind_pure (buildExpr expr)]
    exact (makes_expr expr h).bind fun _ => .pure fun _ _ hP => ⟨hP.1, .inl hP.2⟩
  | .block .., _ | .ifElse .., _ | .whileLoop .., _ | .doWhile .., _ | .forLoop .., _
  | .forIn .., _ | .ret .., _ | .throw .., _ | .breakTo .., _ | .continueTo .., _
  | .labelled .., _ | .switch .., _ | .tryCatch .., _ | .withScope .., _ | .function .., _ =>
    Makes.throw

theorem makes_optHead : ∀ s : Option Stmt, optStmtUsesOperators s →
    Makes .none (buildOptHead s) (.opt .head)
  | none, _ => by
    rw [buildOptHead]
    exact .pure fun _ _ h => h
  | some s, h => by
    rw [buildOptHead]
    exact .map (makes_head s h)

/-- The clauses of a switch. -/
theorem makes_cases (switch : NodeId) : ∀ cases : List SwitchCase,
    casesUseOperators cases →
      Makes (.switch switch) (buildCases switch cases) fun _ => .switch switch
  | [], _ => by
    rw [buildCases]
    exact .pure fun _ _ h => h
  | .mk test body :: rest, h => by
    rw [buildCases]
    rw [casesUseOperators, Bool.and_eq_true, Bool.and_eq_true] at h
    refine (makes_stmts body h.1.2).more.bind fun statements => ?_
    refine (makes_optExpr test h.1.1).more.bind fun test => ?_
    cases test with
    | none =>
      exact Makes.bind (Q := fun _ => .switch switch) (.map (.shape crafts_switchDefault.alone))
        fun _ => makes_cases switch rest h.2
    | some test =>
      exact Makes.bind (Q := fun _ => .switch switch) (.map (.shape crafts_switchCase))
        fun _ => makes_cases switch rest h.2

/-- The clauses that catch. -/
theorem makes_handlers : ∀ handlers : List Handler, handlersUseOperators handlers →
    Makes .none (buildHandlers handlers) .clauses
  | [], _ => by
    rw [buildHandlers]
    exact .pure fun _ _ h => h
  | .mk name guard body line :: rest, h => by
    rw [buildHandlers]
    rw [handlersUseOperators, Bool.and_eq_true, Bool.and_eq_true] at h
    refine (makes_optExpr guard h.1.1).bind fun condition => ?_
    refine (makes_nestedBlock line (makes_stmts body h.1.2)).more.bind fun body => ?_
    exact (makes_handlers rest h.2).more.bind fun clauses => .pure fun _ _ h => h

end

/-- The program of a document that names operators is framed, with every function closed. -/
theorem build_framed {script : Script} {fallback : Option String} {p : Program}
    (hops : script.usesOperators) (h : build script fallback = .ok (.ok p)) :
    p.Framed [] ∧ 0 < p.bodies.size := by
  have hready : (Builder.start (script.source <|> fallback)).Ready := by
    have hempty : (⟨{}, #[]⟩ : Program).Framed [] :=
      ⟨Tree.linked_empty, fun _ => Tree.Orphan.not_below nofun, fun _ => .fresh rfl rfl,
      by simp, .nil, by simp, by simp, by simp, by simp⟩
    obtain ⟨root, t, ⟨⟩, -, hst, hk⟩ :=
      TreeM.runs_push Tree.linked_empty (n := .ofKind .script) rfl fun _ => .fresh rfl rfl
    exact ⟨hempty.push hk (by simp) (by simp [Program.roots]) ⟨rfl, rfl⟩ hst rfl ⟨rfl, rfl, rfl⟩,
      by simp [start]⟩
  have hbuilds : Builds (do
      let statements ← buildStmts script.body
      onBuilder (Builder.finishScript statements script.endLine))
      (Builder.start (script.source <|> fallback)) fun p _ => p.Framed [] ∧ 0 < p.bodies.size := by
    refine (makes_stmts script.body hops _ hready (Program.has_none _)).bind ?_
    rintro statements b ⟨hlist, hk, -⟩
    exact Builds.onBuilder (runs_finishScript hk.framed (by rw [hk.opened_eq]; rfl) hlist)
  obtain ⟨r, player, hrun, hpost⟩ := hbuilds 0
  refine hpost p ?_
  have hrun' : build script fallback = .ok r := by
    unfold build
    exact congrArg (Except.map (·.1)) hrun
  rw [hrun'] at h
  simpa using h

end Document

end ScriptEngine
