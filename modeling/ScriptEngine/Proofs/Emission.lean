import ScriptEngine.Proofs.Constants
import ScriptEngine.Proofs.Listings

/-!
# Writing code

`Emits m e refused post` says that a computation that writes code comes to an end without a fault:
either it succeeds, and `post` holds, or it gives up with an error that `refused` allows.
`Emitter.Holds` says that an emitter has written a listing whose jumps wait for their offsets.
-/

namespace ScriptEngine

open Assembler ScriptEngine.Tree Forest

variable {f : Forest} {e e' : Emitter} {refused : CodeError → Prop} {p : Program}
  {error : CodeError} {id : NodeId} {items : List Item} {ws : List Written} {found : Option Nat}
  {body : Body} {n fuel depth slots : Nat} {o : Op} {ids : List NodeId} {limits : Limits}

/-! ## Computations that write code -/

/-- The computation ends without a fault; it succeeds with a property or gives up with an error that
is allowed. -/
def Emits {α : Type} (m : EmitM α) (e : Emitter) (refused : CodeError → Prop)
    (post : α → Emitter → Prop) : Prop :=
  ∃ r : Except CodeError (α × Emitter), (m.run e).run = .ok r ∧
    match r with
    | .ok (a, e') => post a e'
    | .error error => refused error

namespace Emits

variable {α β : Type} {m : EmitM α} {f : α → EmitM β}
  {p q : α → Emitter → Prop} {r : β → Emitter → Prop}

private theorem mono (h : Emits m e refused p) (hpq : ∀ a e', p a e' → q a e') :
    Emits m e refused q := by
  obtain ⟨result, hrun, hpost⟩ := h
  refine ⟨result, hrun, ?_⟩
  match result, hpost with
  | .ok (a, e'), hpost => exact hpq a e' hpost
  | .error _, hpost => exact hpost

private theorem weaken {refused' : CodeError → Prop} (h : Emits m e refused p)
    (hrefused : ∀ error, refused error → refused' error) : Emits m e refused' p := by
  obtain ⟨result, hrun, hpost⟩ := h
  refine ⟨result, hrun, ?_⟩
  match result, hpost with
  | .ok (_, _), hpost => exact hpost
  | .error error, hpost => exact hrefused error hpost

/-- A step and then the rest. -/
theorem bind (h : Emits m e refused p) (hf : ∀ a e', p a e' → Emits (f a) e' refused r) :
    Emits (m >>= f) e refused r := by
  obtain ⟨result, hrun, hpost⟩ := h
  match result, hrun, hpost with
  | .ok (a, e'), hrun, hpost =>
    obtain ⟨result', hrun', hpost'⟩ := hf a e' hpost
    refine ⟨result', ?_, hpost'⟩
    rw [StateT.run_bind, ExceptT.run_bind, hrun]
    exact hrun'
  | .error error, hrun, hpost =>
    refine ⟨.error error, ?_, hpost⟩
    rw [StateT.run_bind, ExceptT.run_bind, hrun]
    rfl

private theorem pure {a : α} (h : p a e) :
    Emits (Pure.pure a : EmitM α) e refused p := ⟨.ok (a, e), rfl, h⟩

private theorem throw (h : refused error) :
    Emits (MonadExcept.throw error : EmitM α) e refused p := ⟨.error error, rfl, h⟩

private theorem modify {k : Emitter → Emitter} {p : PUnit → Emitter → Prop} (h : p () (k e)) :
    Emits (modify k : EmitM PUnit) e refused p := ⟨.ok ((), k e), rfl, h⟩

private theorem get_bind {g : Emitter → EmitM β} (h : Emits (g e) e refused r) :
    Emits (get >>= g) e refused r := h

/-- A step that is left out if a condition fails. -/
theorem ite {c : Prop} [Decidable c] {m' : EmitM α} (h : c → Emits m e refused p)
    (h' : ¬ c → Emits m' e refused p) : Emits (if c then m else m') e refused p := by
  split
  · next hc => exact h hc
  · next hc => exact h' hc

end Emits

/-! ## Operands -/

/-- What an operand stands for by an index. -/
inductive Reference where
  | string (s : String)
  | number (x : Number)
  | slot (i : Int)
  | regExp (i : Int)

namespace Reference

def isRegExp : Reference → Bool
  | .regExp _ => true
  | _ => false

/-- The index is that of an entry of the tables. -/
def IsAt (strings : Array String) (numbers : Array Number) (regexps : List RegExpLiteral) :
    Reference → Nat → Prop
  | .string s, i => strings[i]? = some s
  | .number x, i => numbers[i]? = some x
  | .slot k, i => k = i
  | .regExp k, i => k = i ∧ i < regexps.length

end Reference

namespace Tree

variable (t : Tree)

/-- What the operand of a node stands for. -/
def reference? (id : NodeId) : Option Reference :=
  match (t.kind id).operand with
  | .jump | .count => none
  | .number => some (.number ((t.node id).number?.getD (Number.zero false)))
  | .slot => some (.slot (t.intAttrD id .varIndex (-1)))
  | .regExp => some (.regExp (t.intAttrD id .regExpIndex (-1)))
  | .string | .none => (t.string? id).map .string

/-- How many bytes the operand of a node has. -/
def operandSize (id : NodeId) : Nat :=
  match (t.kind id).operand with
  | .jump => 4
  | .count => 1
  | _ => if (t.reference? id).isSome then 2 else 0

/-- References take two bytes. -/
theorem operandSize_of_reference? {t : Tree} {r : Reference}
    (h : t.reference? id = some r) : t.operandSize id = 2 := by
  unfold operandSize
  split
  · next hkind => simp [reference?, hkind] at h
  · next hkind => simp [reference?, hkind] at h
  · simp [h]

end Tree

/-! ## What an emitter has written -/

/-- The emitter has written a listing; the operands of jumps wait for their offsets. -/
structure Emitter.Holds (e : Emitter) (items : List Item) (ws : List Written) : Prop where
  ops : ws.map Written.op = items.filterMap Item.op?
  code : e.out.code.toList = ws.flatMap Written.bytes
  fits : ∀ x ∈ ws, x.Fits e.out.strings.items e.out.numbers.items fun _ n => n = 0
  targets : e.targets = (places 0 items).reverse
  fixups : e.fixups = (jumps 0 (ws.map Written.op)).reverse

namespace Emitter.Holds

private theorem empty : ({} : Emitter).Holds [] [] := ⟨rfl, rfl, by simp, rfl, rfl⟩

private theorem pc_eq (h : e.Holds items ws) : e.out.pc = codeSize items := by
  rw [pc, ← Array.length_toList, h.code, length_flatMap_bytes, h.ops, codeSize]

/-- Notes about the code do not matter. -/
theorem note (h : e.Holds items ws) (hcode : e'.out.code = e.out.code)
    (hstrings : e'.out.strings = e.out.strings) (hnumbers : e'.out.numbers = e.out.numbers)
    (htargets : e'.targets = e.targets) (hfixups : e'.fixups = e.fixups) : e'.Holds items ws :=
  ⟨h.ops, by rw [hcode, h.code], by rw [hstrings, hnumbers]; exact h.fits,
    by rw [htargets, h.targets], by rw [hfixups, h.fixups]⟩

/-- A target stands here. -/
theorem place (h : e.Holds items ws) (id : NodeId) :
    Emitter.Holds { e with targets := (id, e.out.pc) :: e.targets } (items ++ [.target id]) ws := by
  refine ⟨?_, h.code, h.fits, ?_, h.fixups⟩
  · simpa using h.ops
  · rw [places_append, h.targets, h.pc_eq]
    simp [places]

end Emitter.Holds

/-! ## Opcodes and operands -/

namespace Assembler

/-- Bytes are written over as many others. -/
theorem toList_overwrite {code : Array UInt8} {before old behind bytes : List UInt8}
    (hcode : code.toList = before ++ (old ++ behind)) (hlen : old.length = bytes.length) :
    (overwrite code before.length bytes).toList = before ++ (bytes ++ behind) := by
  unfold overwrite
  induction bytes generalizing code before old with
  | nil =>
    obtain rfl : old = [] := List.eq_nil_of_length_eq_zero hlen
    exact hcode
  | cons b bytes ih =>
    obtain ⟨a, old, rfl⟩ : ∃ a rest, old = a :: rest :=
      List.exists_cons_of_ne_nil (by rintro rfl; simp at hlen)
    have hnext : (code.setIfInBounds before.length b).toList = (before ++ [b]) ++
        (old ++ behind) := by
      rw [Array.toList_setIfInBounds, hcode]
      simp
    have := ih hnext (by simpa using hlen)
    rw [List.length_append] at this
    rw [List.foldl_cons]
    simpa using this

private theorem eq_some_of_positionOr {i : Nat}
    (h : positionOr error found = .ok i) : found = some i := by
  cases found with
  | none => cases h
  | some j => exact congrArg some (Except.ok.inj h)

private theorem isRange_of_positionOr {error' : CodeError} (hrange : error.isRange = true)
    (h : positionOr error found = .error error') : error'.isRange = true := by
  cases found with
  | none => exact Except.error.inj h ▸ hrange
  | some _ => cases h

end Assembler

/-- The errors for which there may be no code: a limit of the format is exceeded, or a variable has
a slot that is too large for an operand. -/
def CodeError.IsLimit (t : Tree) (ids : List NodeId) (error : CodeError) : Prop :=
  error.isRange = true ∨ ∃ id ∈ ids, ∃ slot : Nat, error = .noVariableSlot id ∧
    (t.kind id = .getVar ∨ t.kind id = .setVar) ∧ t.attr? id .varIndex = some (.int slot) ∧
      2 ^ 16 ≤ slot

namespace Emitter

/-- The opcode of a node is written. -/
def opened (e : Emitter) (kind : Token) : Emitter :=
  { e with out := e.out.emitBytes [UInt8.ofNat kind.code] }

variable {t : Tree} {l : Node}

/-- An instruction begins with its opcode. -/
theorem emits_opcode {kind : Token} (hkind : kind.isBytecode) :
    Emits (emitOpcode kind) e refused fun _ e' => e' = e.opened kind := by
  refine ⟨.ok ((), e.opened kind), ?_, rfl⟩
  unfold emitOpcode
  simp only [emit, hkind, if_true]
  rfl

private theorem kind_eq (hl : t.label id = l) : t.kind id = l.kind := by rw [t.kind_eq_label, hl]

private theorem run_emitConstant
    (intern : Assembler → Except CodeError Nat × Assembler) (e : Emitter) :
    (emitConstant intern).run e =
      (match (intern e.out).1 with
      | .ok index => modifyOut (·.emitShort index)
      | .error error => throw error : EmitM Unit).run { e with out := (intern e.out).2 } := rfl

/-- A constant is put into its pool, or there is no room for it. -/
theorem emits_constant {intern : Assembler → Except CodeError Nat × Assembler}
    {post : Unit → Emitter → Prop}
    (hok : ∀ i, (intern e.out).1 = .ok i → post () { e with out := (intern e.out).2.emitShort i })
    (herror : ∀ error, (intern e.out).1 = .error error → refused error) :
    Emits (emitConstant intern) e refused post := by
  cases hi : (intern e.out).1 with
  | ok i =>
    refine ⟨.ok ((), { e with out := (intern e.out).2.emitShort i }), ?_, hok i hi⟩
    rw [run_emitConstant, hi]
    rfl
  | error error =>
    refine ⟨.error error, ?_, herror error hi⟩
    rw [run_emitConstant, hi]
    rfl

/-- The operand of an instruction, by the kind of its node. -/
theorem emitOperand_eq (t : Tree) (body : Body) (id : NodeId) : emitOperand t body id =
    (match (t.kind id).operand with
    | .jump =>
      match t.target? id with
      | some target =>
        modify fun e => { e with out := e.out.emitLong 0, fixups := (e.out.pc, target) :: e.fixups }
      | none => throw (.noJumpTarget id (t.kind id))
    | .number => emitConstant (·.addNumber ((t.node id).number?.getD (Number.zero false)))
    | .slot =>
      if 0 ≤ t.intAttrD id .varIndex (-1) ∧ t.intAttrD id .varIndex (-1) < 2 ^ 16 then
        modifyOut (·.emitShort (t.intAttrD id .varIndex (-1)).toNat)
      else throw (.noVariableSlot id)
    | .regExp =>
      if 0 ≤ t.intAttrD id .regExpIndex (-1) ∧
          t.intAttrD id .regExpIndex (-1) < body.regexpTable.size then
        modifyOut (·.emitShort (t.intAttrD id .regExpIndex (-1)).toNat)
      else throw (.noRegExp id)
    | .count => do
      modifyOut (·.noteCalleeArgs ((t.children id).length - 1))
      if (t.children id).length - 1 < 2 ^ 8 then modifyOut (·.emitByte ((t.children id).length - 1))
      else throw (.tooManyArguments id)
    | .string | .none => do
      if let some s := t.string? id then emitConstant (·.addString s)) := by
  unfold emitOperand
  cases t.kind id <;> rfl

/-- What an operand needs is missing, or a limit of the format is exceeded. -/
def Refuses (t : Tree) (body : Body) (id : NodeId) (error : CodeError) : Prop :=
  error.isRange = true ∨ match (t.kind id).operand with
    | .jump => t.target? id = none
    | .slot => error = .noVariableSlot id ∧
      ¬ (0 ≤ t.intAttrD id .varIndex (-1) ∧ t.intAttrD id .varIndex (-1) < 2 ^ 16)
    | .regExp => ¬ (0 ≤ t.intAttrD id .regExpIndex (-1) ∧
      t.intAttrD id .regExpIndex (-1) < body.regexpTable.size)
    | _ => False

/-- A node is written: its opcode, and a value as its operand. What the operand stands for has the
value as its index; jumps wait for their offsets. -/
structure Puts (t : Tree) (body : Body) (id : NodeId) (e e' : Emitter) (n : Nat) : Prop where
  code : e'.out.code.toList = e.out.code.toList ++
    UInt8.ofNat (t.kind id).code :: Assembler.littleEndian n (t.operandSize id)
  strings : ∀ (i : Nat) (s : String), e.out.strings.items[i]? = some s →
    e'.out.strings.items[i]? = some s
  numbers : ∀ (i : Nat) (x : Number), e.out.numbers.items[i]? = some x →
    e'.out.numbers.items[i]? = some x
  targets : e'.targets = e.targets
  fixups : ((t.kind id).operand ≠ .jump ∧ e'.fixups = e.fixups) ∨
    (t.kind id).operand = .jump ∧ ∃ target, t.target? id = some target ∧
      e'.fixups = (e.out.pc + 1, target) :: e.fixups
  stack : e'.out.maxStack = e.out.maxStack
  index : ∀ r, t.reference? id = some r →
    r.IsAt e'.out.strings.items e'.out.numbers.items body.regexps n ∧
      (r.isRegExp = false → n < 2 ^ 16)
  count : (t.kind id).operand = .count → n = (t.children id).length - 1 ∧ n < 2 ^ 8
  zero : (t.kind id).operand ≠ .count → t.reference? id = none → n = 0

/-- An operand of which nothing is put into a pool. -/
theorem puts_plain {out : Assembler} (size : Nat) (hsize : t.operandSize id = size)
    (hcode : out.code = (e.opened (t.kind id)).out.code) (hstrings : out.strings = e.out.strings)
    (hnumbers : out.numbers = e.out.numbers)
    (hstack : out.maxStack = e.out.maxStack) (hjump : (t.kind id).operand ≠ .jump)
    (hindex : ∀ r, t.reference? id = some r →
      r.IsAt e.out.strings.items e.out.numbers.items body.regexps n ∧
        (r.isRegExp = false → n < 2 ^ 16))
    (hcount : (t.kind id).operand = .count → n = (t.children id).length - 1 ∧ n < 2 ^ 8)
    (hzero : (t.kind id).operand ≠ .count → t.reference? id = none → n = 0) :
    Puts t body id e { e.opened (t.kind id) with
      out := out.emitBytes (Assembler.littleEndian n size) } n where
  code := by simp [hcode, opened, hsize]
  strings _ _ hs := hstrings ▸ hs
  numbers _ _ hx := hnumbers ▸ hx
  targets := rfl
  fixups := .inl ⟨hjump, rfl⟩
  stack := hstack
  index r hr := by
    show r.IsAt out.strings.items out.numbers.items body.regexps n ∧ _
    rw [hstrings, hnumbers]
    exact hindex r hr
  count := hcount
  zero := hzero

/-- The operand of a node is written behind its opcode. -/
theorem emits_operand (t : Tree) (body : Body) (id : NodeId) (e : Emitter) :
    Emits (emitOperand t body id) (e.opened (t.kind id)) (Refuses t body id) fun _ e' =>
      ∃ n, Puts t body id e e' n := by
  rw [emitOperand_eq]
  cases hkind : (t.kind id).operand with
  | jump =>
    dsimp only
    split
    · next target htarget =>
      refine Emits.modify ⟨0, by simp [emitLong, opened, operandSize, hkind],
        fun _ _ hs => hs, fun _ _ hx => hx, rfl, .inr ⟨hkind, target, htarget, ?_⟩, rfl, ?_, ?_,
        fun _ _ => rfl⟩
      · simp [opened, pc, ← Array.length_toList]
      · simp [reference?, hkind]
      · simp [hkind]
    · next htarget => exact Emits.throw (.inr (by simpa [hkind] using htarget))
  | number =>
    let x := (t.node id).number?.getD (Number.zero false)
    have href : t.reference? id = some (.number x) := by rw [reference?, hkind]
    have hintern := e.out.numbers.interned x
    refine emits_constant (fun i hi => ⟨i, ?_⟩) fun _ h => .inl (isRange_of_positionOr rfl h)
    have hi := eq_some_of_positionOr hi
    refine ⟨?_, fun _ _ hs => hs, fun _ _ hx => hintern.getElem?_of_getElem? hx, rfl,
      .inl ⟨by simp [hkind], rfl⟩, rfl, fun r hr => ?_, by simp [hkind], by simp [href]⟩
    · rw [operandSize_of_reference? href]
      simp [emitShort, addNumber, opened]
    · obtain rfl := Option.some.inj (href.symm.trans hr)
      obtain ⟨hat, hlt⟩ := (hi ▸ hintern).getElem?_eq
      exact ⟨hat, fun _ => hlt⟩
  | slot =>
    refine Emits.ite (fun hslot => Emits.modify
      ⟨_, puts_plain _ ?_ rfl rfl rfl rfl (by simp [hkind])
      ?_ (by simp [hkind]) (by simp [reference?, hkind])⟩) fun hslot => Emits.throw (.inr ?_)
    · simp [operandSize, reference?, hkind]
    · simp only [reference?, hkind, Option.some.injEq]
      rintro _ rfl
      exact ⟨(Int.toNat_of_nonneg hslot.1).symm, fun _ => by omega⟩
    · rw [hkind]
      exact ⟨rfl, hslot⟩
  | regExp =>
    refine Emits.ite (fun hindex => Emits.modify
      ⟨_, puts_plain _ ?_ rfl rfl rfl rfl (by simp [hkind])
      ?_ (by simp [hkind]) (by simp [reference?, hkind])⟩) fun hindex => Emits.throw (.inr ?_)
    · simp [operandSize, reference?, hkind]
    · simp only [reference?, hkind, Option.some.injEq]
      rintro _ rfl
      refine ⟨⟨(Int.toNat_of_nonneg hindex.1).symm, ?_⟩, nofun⟩
      show _ < body.regexpTable.size
      omega
    · rw [hkind]
      exact hindex
  | count =>
    refine (Emits.modify (p := fun _ e' => e' = { e.opened (t.kind id) with
      out := (e.opened (t.kind id)).out.noteCalleeArgs ((t.children id).length - 1) }) rfl).bind ?_
    rintro _ _ rfl
    refine Emits.ite (fun hlt => Emits.modify ⟨_, puts_plain _ ?_ rfl rfl rfl rfl (by simp [hkind])
      ?_ (fun _ => ⟨rfl, hlt⟩) (by simp [hkind])⟩) fun _ => Emits.throw (.inl rfl)
    · simp [operandSize, hkind]
    · simp [reference?, hkind]
  | string | none =>
    dsimp only
    split
    · next s hs =>
      have href : t.reference? id = some (.string s) := by rw [reference?, hkind, hs]; rfl
      have hintern := e.out.strings.interned s
      refine emits_constant (fun i hi => ⟨i, ?_⟩) fun _ h => .inl (isRange_of_positionOr rfl h)
      have hi := eq_some_of_positionOr hi
      refine ⟨?_, fun _ _ hs => hintern.getElem?_of_getElem? hs, fun _ _ hx => hx, rfl,
        .inl ⟨by simp [hkind], rfl⟩, rfl, fun r hr => ?_, by simp [hkind], by simp [href]⟩
      · rw [operandSize_of_reference? href]
        simp [emitShort, addString, opened]
      · obtain rfl := Option.some.inj (href.symm.trans hr)
        obtain ⟨hat, hlt⟩ := (hi ▸ hintern).getElem?_eq
        exact ⟨hat, fun _ => hlt⟩
    · next hs =>
      have hnone : t.string? id = none := Option.eq_none_iff_forall_ne_some.mpr hs
      refine Emits.pure ⟨0, puts_plain 0 ?_ rfl rfl rfl rfl (by simp [hkind]) ?_ (by simp [hkind])
        fun _ _ => rfl⟩
      · simp [operandSize, reference?, hkind, hnone]
      · simp [reference?, hkind, hnone]

/-- The string of a node that carries one. -/
theorem string?_of_coded (hcoded : l.Coded limits slots) (hkind : l.kind.operand = .string) :
    ∃ s, l.string? = some s := by
  have hcarries := hcoded.carries
  rcases Token.operand_eq_string hkind with hk | hk | hk | hk <;>
  · rw [hk] at hcarries
    obtain ⟨s, hs⟩ := hcarries
    exact ⟨s, by simp [Node.string?, hs]⟩

/-- Other nodes have none, apart from functions. -/
theorem string?_of_coded_none (hcoded : l.Coded limits slots) (hkind : l.kind.operand = .none)
    (hfun : l.kind ≠ .function) : l.string? = none := by
  have hnone : l.payload = .none := by
    have hcarries := hcoded.carries
    unfold Token.Carries at hcarries
    split at hcarries <;> simp_all [Token.operand]
  simp [Node.string?, hnone]

/-- The operand of a node that is fit for code is what the node says. -/
theorem Puts.fits (h : Puts t body id e e' n)
    (hl : t.label id = o.node) (hargs : o.args = (t.children id).length - 1)
    (hcoded : o.node.Coded limits slots) (hfun : o.node.kind ≠ .function) :
    t.operandSize id = o.kind.operand.size ∧
      (Written.mk o n).Fits e'.out.strings.items e'.out.numbers.items fun _ n => n = 0 := by
  have hk : (t.kind id).operand = o.kind.operand := congrArg Token.operand (kind_eq hl)
  have hint (key : AttrKey) {i : Nat} (hi : o.node.attrs.get? key = some (.int i)) :
      t.intAttrD id key (-1) = i := by
    rw [intAttrD, t.attr?_eq_label, hl, hi]
  simp only [Written.Fits]
  cases hkind : o.kind.operand with
  | jump =>
    rcases h.fixups with ⟨hnot, -⟩ | ⟨-, target, htarget, -⟩
    · exact absurd (hk.trans hkind) hnot
    · rw [t.target?_eq_label, hl] at htarget
      have hzero := h.zero (by simp [hk, hkind]) (by simp [reference?, hk, hkind])
      exact ⟨by simp [operandSize, hk, hkind, OperandKind.size], target, htarget, hzero⟩
  | number =>
    obtain ⟨x, hx⟩ : ∃ x, o.node.number? = some x := by
      have hcarries := hcoded.carries
      rw [show o.node.kind = _ from Token.operand_eq_number hkind] at hcarries
      obtain ⟨x, hx⟩ := hcarries
      exact ⟨x, by simp [Node.number?, hx]⟩
    have href : t.reference? id = some (.number x) := by
      have hn : (t.node id).number? = some x := by rw [← hx, ← hl]; rfl
      rw [reference?, hk, hkind, hn]
      rfl
    exact ⟨operandSize_of_reference? href, x, hx, (h.index _ href).1, (h.index _ href).2 rfl⟩
  | string =>
    obtain ⟨x, hx⟩ := string?_of_coded hcoded hkind
    have href : t.reference? id = some (.string x) := by
      rw [reference?, hk, hkind, t.string?_eq_label, hl, hx]
      rfl
    exact ⟨operandSize_of_reference? href, x, hx, (h.index _ href).1, (h.index _ href).2 rfl⟩
  | slot =>
    obtain ⟨i, hi, -⟩ := hcoded.slot (Token.operand_eq_slot hkind)
    have href : t.reference? id = some (.slot i) := by rw [reference?, hk, hkind, hint _ hi]
    obtain ⟨hat, hlt⟩ := h.index _ href
    obtain rfl : i = n := Int.ofNat.inj hat
    exact ⟨operandSize_of_reference? href, hi, hlt rfl⟩
  | regExp =>
    obtain ⟨i, hi, -⟩ := hcoded.regExp (Token.operand_eq_regExp hkind)
    have href : t.reference? id = some (.regExp i) := by rw [reference?, hk, hkind, hint _ hi]
    obtain rfl : i = n := Int.ofNat.inj (h.index _ href).1.1
    exact ⟨operandSize_of_reference? href, hi⟩
  | count =>
    obtain ⟨hn, hlt⟩ := h.count (hk.trans hkind)
    exact ⟨by simp [operandSize, hk, hkind, OperandKind.size], hn.trans hargs.symm, hlt⟩
  | none =>
    have hnone : t.reference? id = none := by
      rw [reference?, hk, hkind, t.string?_eq_label, hl, string?_of_coded_none hcoded hkind hfun]
      rfl
    exact ⟨by simp [operandSize, hk, hkind, hnone, OperandKind.size],
      h.zero (by simp [hk, hkind]) hnone⟩

/-- An opcode is written with its operand. -/
theorem Holds.write (h : e.Holds items ws)
    (hputs : Puts t body id e e' n) (hl : t.label id = o.node)
    (hargs : o.args = (t.children id).length - 1) (hcoded : o.node.Coded limits slots)
    (hfun : o.node.kind ≠ .function) : e'.Holds (items ++ [.op o]) (ws ++ [⟨o, n⟩]) := by
  obtain ⟨hsize, hfits⟩ := hputs.fits hl hargs hcoded hfun
  have hk : t.kind id = o.kind := kind_eq hl
  refine ⟨by simp [h.ops], ?_, fun y hy => ?_, ?_, ?_⟩
  · rw [hputs.code, h.code, hk, hsize]
    simp [Written.bytes]
  · rcases List.mem_append.mp hy with hy | hy
    · exact (h.fits y hy).mono hputs.strings hputs.numbers
    · rw [List.mem_singleton.mp hy]
      exact hfits
  · rw [hputs.targets, h.targets, places_append]
    simp [places]
  · have hfixups : e'.fixups = (o.jump?.map (e.out.pc + 1, ·)).toList ++ e.fixups := by
      rcases hputs.fixups with ⟨hnot, heq⟩ | ⟨hjump, target, htarget, heq⟩
      · rw [heq, Op.jump?, if_neg (hk ▸ hnot)]
        rfl
      · rw [t.target?_eq_label, hl] at htarget
        rw [heq, Op.jump?, if_pos (hk ▸ hjump), show o.node.target? = _ from htarget]
        rfl
    rw [hfixups, h.fixups, List.map_append, jumps_append, h.pc_eq, codeSize, ← h.ops]
    cases hj : o.jump? <;> simp [jumps, hj]

/-- A node that is an opcode is written behind what is there. -/
theorem emits_op {kids : Forest} (h : e.Holds items ws) (hl : t.label id = l)
    (hid : id ∈ ids) (hc : t.children id = kids.roots) (hcoded : l.Coded limits slots)
    (hregexps : limits.regexps ≤ body.regexps.length)
    (htarget : l.kind.isBranch → ∃ target, l.target? = some target) (hbyte : l.kind.isBytecode)
    (hfun : l.kind ≠ .function) :
    Emits (do emitOpcode l.kind; emitOperand t body id) e (CodeError.IsLimit t ids) fun _ e' =>
      ∃ x, e'.Holds (items ++ [.op ⟨id, l, kids.roots.length - 1⟩]) (ws ++ [x]) := by
  have hk : t.kind id = l.kind := kind_eq hl
  refine (emits_opcode hbyte).bind ?_
  rintro _ _ rfl
  rw [← hk]
  refine ((emits_operand t body id e).weaken ?_).mono ?_
  · rintro error (hrange | hmissing)
    · exact .inl hrange
    -- The node says what its operand is, so only a slot that is too large is refused.
    rw [hk] at hmissing
    split at hmissing
    · next hkind =>
      obtain ⟨target, ht⟩ := htarget (Token.isBranch_iff.mpr hkind)
      rw [t.target?_eq_label, hl] at hmissing
      cases hmissing.symm.trans ht
    · next hkind =>
      obtain ⟨slot, hslot, -⟩ := hcoded.slot (Token.operand_eq_slot hkind)
      have hattr : t.attr? id .varIndex = some (.int slot) := by rw [t.attr?_eq_label, hl, hslot]
      rw [intAttrD, hattr] at hmissing
      refine .inr ⟨id, hid, slot, hmissing.1, hk ▸ Token.operand_eq_slot hkind, hattr, ?_⟩
      have := hmissing.2
      dsimp only at this
      omega
    · next hkind =>
      obtain ⟨i, hi, hlt⟩ := hcoded.regExp (Token.operand_eq_regExp hkind)
      have hlen : limits.regexps ≤ body.regexpTable.size := hregexps
      rw [intAttrD, t.attr?_eq_label, hl, hi] at hmissing
      dsimp only at hmissing
      omega
    · exact hmissing.elim
  · rintro _ e' ⟨n, hputs⟩
    exact ⟨_, h.write (o := ⟨id, l, kids.roots.length - 1⟩) hputs hl (by rw [hc]) hcoded hfun⟩

/-! ## Whole forests -/

/-- The notes before the children of a node. -/
def noteBefore (t : Tree) (id : NodeId) : EmitM Unit := do
  match t.line id with
  | some line => modifyOut (·.noteLine line)
  | none => pure ()
  if t.kind id = .tryStmt then
    modify fun e =>
      { e with tryDepth := e.tryDepth + 1, out := e.out.noteTryDepth (e.tryDepth + 1) }

/-- The notes behind them. -/
def noteBehind (t : Tree) (depth : Nat) (id : NodeId) : EmitM Unit := do
  if t.kind id = .tryStmt then modify fun e => { e with tryDepth := e.tryDepth - 1 }
  modifyOut (·.noteStack (depth + 1))

/-- A node is emitted behind its children. -/
theorem emitNode_eq (hl : t.label id = l) (htarget : l.kind ≠ .target)
    (hfun : l.kind ≠ .function) : emitNode t body (fuel + 1) depth id = (do
      noteBefore t id
      (t.children id).forM (emitNode t body fuel (depth + 1))
      noteBehind t depth id
      if l.kind.isBytecode then do
        emitOpcode l.kind
        emitOperand t body id) := by
  rw [emitNode, noteBefore, noteBehind, kind_eq hl]
  split
  · next hk => exact absurd hk htarget
  · next hk => exact absurd hk hfun
  · cases t.line id <;> by_cases htry : l.kind = .tryStmt <;> simp [htry]

private theorem Holds.noteBefore (h : e.Holds items ws) :
    Emits (noteBefore t id) e refused fun _ e' => e'.Holds items ws := by
  have htry {e1 : Emitter} (h1 : e1.Holds items ws) : Emits (do
      if t.kind id = .tryStmt then
        modify fun e =>
          { e with tryDepth := e.tryDepth + 1, out := e.out.noteTryDepth (e.tryDepth + 1) })
      e1 refused fun _ e' => e'.Holds items ws :=
    Emits.ite (fun _ => Emits.modify (h1.note rfl rfl rfl rfl rfl)) fun _ => Emits.pure h1
  unfold Emitter.noteBefore
  cases t.line id with
  | some line =>
    refine Emits.bind (p := fun _ e' => e'.Holds items ws) ?_ fun _ _ h1 => htry h1
    exact Emits.modify (h.note rfl rfl rfl rfl rfl)
  | none =>
    exact (Emits.pure (a := ()) (p := fun _ e' => e'.Holds items ws) h).bind fun _ _ h1 => htry h1

private theorem Holds.noteBehind (h : e.Holds items ws) :
    Emits (noteBehind t depth id) e refused fun _ e' => e'.Holds items ws := by
  have hstack {e1 : Emitter} (h1 : e1.Holds items ws) :
      Emits (modifyOut (·.noteStack (depth + 1))) e1 refused fun _ e' => e'.Holds items ws :=
    Emits.modify (h1.note rfl rfl rfl rfl rfl)
  unfold Emitter.noteBehind
  refine Emits.ite (fun _ => ?_) fun _ => ?_
  · refine Emits.bind (p := fun _ e' => e'.Holds items ws) ?_ fun _ _ h1 => hstack h1
    exact Emits.modify (h.note rfl rfl rfl rfl rfl)
  · exact (Emits.pure (a := ()) (p := fun _ e' => e'.Holds items ws) h).bind fun _ _ h1 => hstack h1

/-- A forest is written behind what is there. -/
theorem emits_forest (hspells : t.Spells f) (hall : f.All (Node.Encodes limits slots))
    (hids : ∀ q ∈ f.ids, q ∈ ids) (hregexps : limits.regexps ≤ body.regexps.length)
    (hfuel : f.count < fuel) (h : e.Holds items ws) :
    Emits (f.roots.forM (emitNode t body fuel depth)) e (CodeError.IsLimit t ids) fun _ e' =>
      ∃ ws', e'.Holds (items ++ f.items) ws' := by
  induction f generalizing fuel depth e items ws with
  | nil => exact Emits.pure ⟨ws, by simpa [Forest.items] using h⟩
  | cons id l kids rest ihk ihr =>
    obtain ⟨⟨-, hl, hc⟩, hkids, hrest⟩ := hspells
    obtain ⟨hnode, hallk, hallr⟩ := hall
    rw [count_cons] at hfuel
    obtain ⟨fuel, rfl⟩ : ∃ n, fuel = n + 1 := ⟨fuel - 1, by omega⟩
    rw [roots_cons, List.forM_eq_forM, List.forM_cons]
    have hone : Emits (emitNode t body (fuel + 1) depth id) e (CodeError.IsLimit t ids) fun _ e' =>
        ∃ ws', e'.Holds (items ++ (Forest.tree id l kids).items) ws' := by
      by_cases htarget : l.kind = .target
      · rw [emitNode, kind_eq hl, htarget]
        refine Emits.modify ⟨ws, ?_⟩
        simpa [Forest.items, htarget] using h.place id
      by_cases hfun : l.kind = .function
      · rw [emitNode, kind_eq hl, hfun]
        exact Emits.pure ⟨ws, by simpa [Forest.items, hfun] using h⟩
      rw [emitNode_eq hl htarget hfun, items_tree htarget hfun, hc]
      refine h.noteBefore.bind fun _ e1 h1 => ?_
      refine (ihk hkids hallk (fun q hq => hids q (by simp [hq])) (by omega) h1).bind ?_
      rintro _ e2 ⟨ws2, h2⟩
      refine h2.noteBehind.bind fun _ e3 h3 => ?_
      rw [← List.append_assoc]
      refine Emits.ite (fun hbyte => ?_) fun hbyte => Emits.pure ⟨ws2, by simpa [hbyte] using h3⟩
      refine (emits_op h3 hl (hids id (by simp)) hc hnode.coded hregexps hnode.target hbyte
        hfun).mono ?_
      rintro _ e4 ⟨x, h4⟩
      exact ⟨ws2 ++ [x], by simpa [hbyte] using h4⟩
    refine hone.bind ?_
    rintro _ e1 ⟨ws1, h1⟩
    refine (ihr hrest hallr (fun q hq => hids q (by simp [hq])) (by omega) h1).mono ?_
    rintro _ e2 ⟨ws2, h2⟩
    exact ⟨ws2, by rw [items_cons, ← List.append_assoc]; exact h2⟩

/-! ## Jumps -/

/-- The offset of a target is written into a jump. -/
theorem emits_patchJump (before old behind : List UInt8) {target : NodeId} {pc : Nat}
    (hcode : e.out.code.toList = before ++ (old ++ behind)) (hlen : old.length = 4)
    (htarget : e.targets.lookup target = some pc) :
    Emits (patchJump before.length target) e (·.isRange = true) fun _ e' => pc < 2 ^ 31 ∧
      ∃ code : Array UInt8, e' = { e with out := { e.out with code } } ∧
        code.toList = before ++ (Assembler.littleEndian pc 4 ++ behind) := by
  have hsize : before.length + 4 ≤ e.out.code.size := by
    rw [← Array.length_toList, hcode]
    simp [hlen]
  refine Emits.get_bind ?_
  simp only [htarget]
  refine Emits.ite (fun hlt => ?_) fun _ => Emits.throw rfl
  refine ⟨.ok ((), { e with out := { e.out with
    code := Assembler.overwrite e.out.code before.length (Assembler.littleEndian pc 4) } }), ?_,
    hlt, _, rfl, ?_⟩
  · rw [patchLong, if_pos hsize]
    rfl
  · exact toList_overwrite hcode (by simp [hlen])

/-- The offsets of targets are written into all jumps. The loop goes over the instructions from left
to right; those in front of it are done. -/
theorem emits_jumps {targets : List (NodeId × Nat)} (before ws : List Written)
    (hcode : e.out.code.toList = before.flatMap Written.bytes ++ ws.flatMap Written.bytes)
    (hbefore : ∀ x ∈ before, x.Fits e.out.strings.items e.out.numbers.items fun target n =>
      targets.lookup target = some n ∧ n < 2 ^ 31)
    (hws : ∀ x ∈ ws, x.Fits e.out.strings.items e.out.numbers.items fun _ n => n = 0)
    (htargets : e.targets = targets)
    (hplaced : ∀ x ∈ ws, ∀ target, x.op.jump? = some target → ∃ pc,
    targets.lookup target = some pc) :
    Emits ((jumps (before.flatMap Written.bytes).length (ws.map Written.op)).forM
        fun (operand, target) => patchJump operand target) e (·.isRange = true) fun _ e' =>
      ∃ ws' : List Written, ws'.map Written.op = (before ++ ws).map Written.op ∧
        e'.out.code.toList = ws'.flatMap Written.bytes ∧
        ∀ x ∈ ws', x.Fits e'.out.strings.items e'.out.numbers.items fun target n =>
          targets.lookup target = some n ∧ n < 2 ^ 31 := by
  induction ws generalizing e before with
  | nil => exact Emits.pure ⟨before, by simp, by simpa using hcode, hbefore⟩
  | cons x ws ih =>
    -- The rest of the loop, with `y` in the place of `x`.
    have hnext (y : Written) (hop : y.op = x.op) (e1 : Emitter)
        (hcode1 : e1.out.code.toList =
          before.flatMap Written.bytes ++ (y.bytes ++ ws.flatMap Written.bytes))
        (hstrings : e1.out.strings = e.out.strings) (hnumbers : e1.out.numbers = e.out.numbers)
        (htargets1 : e1.targets = targets)
        (hy : y.Fits e.out.strings.items e.out.numbers.items fun target n =>
          targets.lookup target = some n ∧ n < 2 ^ 31) := by
      refine ih (before ++ [y]) (e := e1) ?_ ?_ ?_ htargets1 fun z hz => hplaced z (by simp [hz])
      · simpa using hcode1
      · rw [hstrings, hnumbers]
        simpa [or_imp, forall_and] using ⟨hbefore, hy⟩
      · rw [hstrings, hnumbers]
        exact fun z hz => hws z (by simp [hz])
    have hx := hws x (by simp)
    rw [List.map_cons, jumps]
    cases hj : x.op.jump? with
    | none =>
      have := hnext x rfl e (by simpa using hcode) rfl rfl htargets (hx.of_jump?_eq_none hj)
      simpa using this
    | some target =>
      obtain ⟨hkind, htarget⟩ := Written.kind_of_jump? hj
      obtain ⟨pc, hpc⟩ := hplaced x (by simp) target hj
      have hbytes (y : Written) (hop : y.op = x.op) : y.bytes =
          UInt8.ofNat x.op.kind.code :: Assembler.littleEndian y.operand 4 := by
        rw [Written.bytes, hop, hkind]
        rfl
      have hpatch := emits_patchJump (before.flatMap Written.bytes ++ [UInt8.ofNat x.op.kind.code])
        (Assembler.littleEndian x.operand 4) (ws.flatMap Written.bytes)
        (by simpa [hbytes x rfl] using hcode) (by simp) (htargets ▸ hpc)
      rw [Option.map_some, Option.toList_some, List.singleton_append, List.forM_eq_forM,
        List.forM_cons]
      rw [List.length_append, List.length_singleton] at hpatch
      refine hpatch.bind ?_
      rintro _ _ ⟨hlt, code, rfl, hcode1⟩
      have := hnext ⟨x.op, pc⟩ rfl { e with out := { e.out with code } }
        (by simpa [hbytes ⟨x.op, pc⟩ rfl] using hcode1) rfl rfl htargets
        (by simp only [Written.Fits, hkind]; exact ⟨target, htarget, hpc, hlt⟩)
      simpa using this

/-! ## Bodies -/

private theorem emits_body (hspells : p.tree.Spells f)
    (hroots : p.tree.children body.root = f.roots) (hcount : f.count ≤ p.tree.size)
    (hregexps : limits.regexps ≤ body.regexps.length)
    (hcoded : f.All fun l _ => l.Coded limits slots) (hflow : f.Flows f.depths 0 0) :
    Emits (emitBody p body) {} (CodeError.IsLimit p.tree f.ids) fun _ e' =>
      ∃ ws, e'.out.Lists f.items ws := by
  have hall : f.All (Node.Encodes limits slots) := hflow.encodes hcoded
  rw [emitBody, hroots]
  refine (emits_forest hspells hall (fun q hq => hq) hregexps (Nat.lt_succ_of_le hcount)
    Holds.empty).bind ?_
  rintro _ e1 ⟨ws, h1⟩
  rw [List.nil_append] at h1
  refine Emits.bind (p := fun _ e' => e'.Holds f.items ws)
    (Emits.modify (h1.note rfl rfl rfl rfl rfl)) fun _ e2 h2 => Emits.get_bind ?_
  have hplaced (x : Written) (hx : x ∈ ws) (target : NodeId) (hj : x.op.jump? = some target) :
      ∃ pc, e2.targets.lookup target = some pc := by
    obtain ⟨depth, hmark⟩ := hflow.target_of_mem_items (mem_items_of_ops h2.ops hx) hj
    obtain ⟨pc, hpc⟩ := exists_place (hmark.mem_items hall) 0
    rw [← Option.isSome_iff_exists, List.lookup_isSome_iff, h2.targets]
    exact ⟨(target, pc), by simpa using hpc, by simp⟩
  have hjumps := emits_jumps [] ws (by simpa using h2.code) (by simp) h2.fits rfl hplaced
  rw [h2.fixups, List.reverse_reverse]
  refine (hjumps.weaken fun _ h => .inl h).mono ?_
  rintro _ e3 ⟨ws', hops, hcode, hfits⟩
  refine ⟨ws', by rw [hops, List.nil_append, h2.ops], hcode, fun x hx => ?_⟩
  refine (hfits x hx).imp fun target n hn => ⟨?_, hn.2⟩
  obtain ⟨l1, l2, heq, -⟩ := List.lookup_eq_some_iff.mp hn.1
  have hmem : (target, n) ∈ e2.targets := heq ▸ (by simp)
  simpa [h2.targets] using hmem

end Emitter

/-- A body that is fit for code has code, unless a limit is exceeded. -/
theorem Program.emit_eq (hspells : p.tree.Spells f) (hroots : p.tree.children body.root = f.roots)
    (hcount : f.count ≤ p.tree.size) (hregexps : limits.regexps ≤ body.regexps.length)
    (hcoded : f.All fun l _ => l.Coded limits slots) (hflow : f.Flows f.depths 0 0) :
    (∃ out ws, p.emit body = .ok (.ok out) ∧ out.Lists f.items ws) ∨
      ∃ error, p.emit body = .ok (.error error) ∧ error.IsLimit p.tree f.ids := by
  obtain ⟨r, hrun, hpost⟩ := Emitter.emits_body hspells hroots hcount hregexps hcoded hflow
  have hemit : p.emit body = .ok (r.map (·.2.out)) := by
    rw [emit, hrun]
    rfl
  match r, hemit, hpost with
  | .ok (_, e), hemit, ⟨ws, hlists⟩ => exact .inl ⟨e.out, ws, hemit, hlists⟩
  | .error error, hemit, hlimit => exact .inr ⟨error, hemit, hlimit⟩

/-- A lowered body has code, unless a limit is exceeded. -/
theorem Layout.Done.emit_eq {L : Layout} {config : Config} {s : LoweringState} {j : BodyId}
    {first : Nat} (hs : L.Sound s) (hd : L.Done config s j first) :
    (∃ out ws, s.program.emit (s.program.body j) = .ok (.ok out) ∧
      out.Lists (s.program.statements j).items ws) ∨
    ∃ error, s.program.emit (s.program.body j) = .ok (.error error) ∧
      error.IsLimit s.program.tree (s.program.statements j).ids := by
  have hst := hd.stands hs
  obtain ⟨hcoded, hflow⟩ := hd.coded hs
  have hnodup := hs.linked.nodup_of_stands hst (by simp)
  have hlen := length_le_size hnodup fun q hq => hst.1.bound hq
  obtain ⟨⟨⟨-, -, hc⟩, hkids, -⟩, -⟩ := hst
  rw [length_ids, count_cons, count_nil] at hlen
  refine Program.emit_eq hkids (by rw [hs.root_eq]; exact hc) ?_ ?_ hcoded hflow
  · exact Nat.le_trans (by omega) hlen
  · exact Nat.le_of_eq (congrArg List.length (Body.congr_frozen Body.regexps (hs.body_eq j)
      fun _ => rfl).symm)

end ScriptEngine
