import ScriptEngine.Proofs.BuiltTrees
import ScriptEngine.Proofs.Workbench

/-!
# Where nodes stand

`Built` says what lowering has to know of the statements of a body. Those of a document keep more
order than that: the clauses of a switch stand behind its selector and nowhere else, a return and a
switch have an operand in front that is neither a jump nor a statement to be taken apart, and the
functions inside a body come behind it in the program.
-/

namespace ScriptEngine

namespace Token

/-- The clauses of a switch. -/
def isClause : Token → Bool
  | .switchCase | .switchDefault => true
  | _ => false

/-- Kinds that need no switch around them. -/
def isFree (kind : Token) : Bool := !kind.isClause

/-- Kinds of nodes that hold statements. -/
def holdsStatements : Token → Bool
  | .block | .loop | .tryStmt | .withBody | .switchCase | .switchDefault => true
  | _ => false

/-- Kinds of nodes in expressions, and of others with nothing but expressions below them. Lowering
leaves all these in one piece. -/
def isOperand : Token → Bool
  | .block | .loop | .tryStmt | .withBody | .switchCase | .switchDefault | .switch | .ret | .var
  | .breakStmt | .continueStmt | .label | .target => false
  | _ => true

/-- Kinds that may stand first below a node. -/
def headBelow (kind : Token) : Token → Bool :=
  if kind.holdsStatements then isFree else isOperand

/-- Kinds that may follow there. -/
def tailBelow (kind : Token) : Token → Bool :=
  if kind.holdsStatements then isFree else if kind = .switch then isClause else isOperand

/-- Operands may stand anywhere. -/
theorem isFree_of_isOperand {kind : Token} (h : kind.isOperand) : kind.isFree := by
  unfold isFree isClause
  split <;> first | rfl | cases h

theorem holdsStatements_of_isOperand {kind : Token} (h : kind.isOperand) :
    kind.holdsStatements = false := by
  unfold holdsStatements
  split <;> first | rfl | cases h

theorem headBelow_of_isOperand {kind : Token} (h : kind.isOperand) :
    kind.headBelow = isOperand := by
  rw [headBelow, holdsStatements_of_isOperand h, if_neg (by simp)]

theorem tailBelow_of_isOperand {kind : Token} (h : kind.isOperand) :
    kind.tailBelow = isOperand := by
  have hswitch : kind ≠ .switch := by
    rintro rfl
    cases h
  rw [tailBelow, holdsStatements_of_isOperand h, if_neg (by simp), if_neg hswitch]

end Token

/-! ## What nodes carry -/

/-- The kind of datum that goes with a kind of node. -/
def Token.Carries : Token → Payload → Prop
  | .name, datum | .bindName, datum | .string, datum | .catchScope, datum | .getVar, datum =>
    ∃ s, datum = .string s
  | .number, datum => ∃ x, datum = .number x
  | .function, _ => True
  | _, datum => datum = .none

/-- What the nodes of a body may refer to: so many bodies, so many regular expressions. The bodies
of the functions inside it come behind the body itself, its owner. -/
structure Limits where
  bodies : Nat
  regexps : Nat
  owner : BodyId

instance : LE Limits :=
  ⟨fun a b => a.bodies ≤ b.bodies ∧ a.regexps ≤ b.regexps ∧ a.owner = b.owner⟩

/-- A node carries what its kind asks for, where there are so many regular expressions. -/
structure Node.Bears (regexps : Nat) (n : Node) : Prop where
  carries : n.kind.Carries n.payload
  regExp : n.kind = .regExp → ∃ i : Nat, n.attrs.get? .regExpIndex = some (.int i) ∧ i < regexps
  no_slot : n.attrs.get? .varIndex = none

/-- A node carries what its kind asks for, or stands for a function. -/
structure Node.Fits (limits : Limits) (n : Node) : Prop where
  carries : n.kind.Carries n.payload
  regExp : n.kind = .regExp →
    ∃ i : Nat, n.attrs.get? .regExpIndex = some (.int i) ∧ i < limits.regexps
  no_slot : n.attrs.get? .varIndex = none
  function (k : BodyId) : n.data = .function k → limits.owner.index < k.index ∧
    k.index < limits.bodies

theorem Node.Fits.bears {limits : Limits} {n : Node} (h : n.Fits limits) : n.Bears limits.regexps :=
  ⟨h.carries, h.regExp, h.no_slot⟩

/-- A node that fits does so within wider limits. -/
theorem Node.Fits.mono {limits limits' : Limits} {n : Node} (h : n.Fits limits)
    (hle : limits ≤ limits') : n.Fits limits' where
  carries := h.carries
  regExp hk :=
    let ⟨i, hi, hlt⟩ := h.regExp hk
    ⟨i, hi, Nat.lt_of_lt_of_le hlt hle.2.1⟩
  no_slot := h.no_slot
  function k hk := ⟨hle.2.2 ▸ (h.function k hk).1, Nat.lt_of_lt_of_le (h.function k hk).2 hle.1⟩

/-- A node that carries nothing and stands for no function. -/
def Node.isBlank (n : Node) : Bool :=
  match n.kind with
  | .name | .bindName | .string | .catchScope | .getVar | .number | .regExp => false
  | _ => n.payload matches .none && (n.attrs.get? .varIndex).isNone && !n.data matches .function _

/-- A blank node fits everywhere. -/
theorem Node.Fits.blank {limits : Limits} {n : Node} (h : n.isBlank) : n.Fits limits := by
  unfold isBlank at h
  split at h
  case h_8 =>
    simp only [Bool.and_eq_true, Bool.not_eq_true', Option.isNone_iff_eq_none] at h
    have hpayload : n.payload = .none := by cases hp : n.payload <;> simp [hp] at h ⊢
    refine ⟨?_, fun hk => by simp_all, h.1.2, fun k hk => by simp [hk] at h⟩
    unfold Token.Carries
    split <;> simp_all
  all_goals cases h

/-! ## Places -/

/-- Every node carries what it should and stands where its kind may stand; `head` tells for the
first one, `tail` for those that follow. -/
def Forest.Placed (limits : Limits) : (head tail : Token → Bool) → Forest → Prop
  | _, _, .nil => True
  | head, tail, .cons _ l kids rest => head l.kind ∧ l.Fits limits ∧
      kids.Placed limits l.kind.headBelow l.kind.tailBelow ∧ rest.Placed limits tail tail

namespace Forest

variable {limits limits' : Limits} {head head' tail ok : Token → Bool} {f g kids rest : Forest}
  {id : NodeId} {l : Node}

@[simp] theorem placed_nil : Forest.nil.Placed limits head tail ↔ True := Iff.rfl

@[simp] theorem placed_cons : (Forest.cons id l kids rest).Placed limits head tail ↔
    head l.kind ∧ l.Fits limits ∧ kids.Placed limits l.kind.headBelow l.kind.tailBelow ∧
      rest.Placed limits tail tail := Iff.rfl

/-- Nodes in sequence. -/
@[simp] theorem placed_append :
    (f ++ g).Placed limits ok ok ↔ f.Placed limits ok ok ∧ g.Placed limits ok ok := by
  induction f with
  | nil => simp
  | cons id l kids rest _ ih => simp [ih, and_assoc]

namespace Placed

/-- A forest stays in place within wider limits. -/
theorem mono (h : f.Placed limits head tail) (hle : limits ≤ limits') :
    f.Placed limits' head tail := by
  induction f generalizing head tail with
  | nil => trivial
  | cons id l kids rest ihk ihr =>
    obtain ⟨hhead, hfits, hkids, hrest⟩ := h
    exact ⟨hhead, hfits.mono hle, ihk hkids, ihr hrest⟩

/-- Operands may stand anywhere. -/
theorem free (h : f.Placed limits Token.isOperand Token.isOperand) :
    f.Placed limits Token.isFree Token.isFree := by
  induction f with
  | nil => trivial
  | cons id l kids rest _ ih =>
    exact ⟨Token.isFree_of_isOperand h.1, h.2.1, h.2.2.1, ih h.2.2.2⟩

/-- A node in front of others. -/
theorem cons (h : (Forest.tree id l kids).Placed limits ok ok) (hr : rest.Placed limits ok ok) :
    (Forest.cons id l kids rest).Placed limits ok ok := ⟨h.1, h.2.1, h.2.2.1, hr⟩

/-- A node over statements. -/
theorem around (h : kids.Placed limits Token.isFree Token.isFree) (hhead : head l.kind)
    (hkind : l.kind.holdsStatements) (hfits : l.Fits limits) :
    (Forest.tree id l kids).Placed limits head tail := by
  refine ⟨hhead, hfits, ?_, trivial⟩
  rwa [Token.headBelow, Token.tailBelow, if_pos hkind, if_pos hkind]

/-- A node over operands. -/
theorem overOperands (h : kids.Placed limits Token.isOperand Token.isOperand) (hhead : head l.kind)
    (hkind : l.kind.holdsStatements = false) (hswitch : l.kind ≠ .switch) (hfits : l.Fits limits) :
    (Forest.tree id l kids).Placed limits head tail := by
  refine ⟨hhead, hfits, ?_, trivial⟩
  rwa [Token.headBelow, Token.tailBelow, hkind, if_neg (by simp), if_neg (by simp), if_neg hswitch]

/-- An operand over others. -/
theorem operand (h : kids.Placed limits Token.isOperand Token.isOperand) (hkind : l.kind.isOperand)
    (hfits : l.Fits limits) : (Forest.tree id l kids).Placed limits Token.isOperand tail := by
  refine ⟨hkind, hfits, ?_, trivial⟩
  rwa [Token.headBelow_of_isOperand hkind, Token.tailBelow_of_isOperand hkind]

theorem leaf (hhead : head l.kind) (hfits : l.Fits limits) :
    (Forest.leaf id l).Placed limits head tail := ⟨hhead, hfits, trivial, trivial⟩

/-- Every node carries what it should. -/
theorem fits (h : f.Placed limits head tail) : f.All fun l _ => l.Fits limits := by
  induction f generalizing head tail with
  | nil => trivial
  | cons id l kids rest ihk ihr => exact ⟨h.2.1, ihk h.2.2.1, ihr h.2.2.2⟩

end Placed

end Forest

end ScriptEngine
