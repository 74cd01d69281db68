import Mathlib.Algebra.Order.Ring.Nat
import ScriptEngine.Code.Compile
import ScriptEngine.Proofs.CodedTrees

/-!
# Listings

The listing of a forest, `Forest.items`, has its opcodes in postorder and its targets where they
stand. `Assembler.Lists` says that code is that of a listing: the bytes are those of its
instructions, and each operand is the one that the node of the instruction asks for.
-/

namespace ScriptEngine

open Forest

variable {k : Token} {jump' jump : NodeId → Nat → Prop} {depths : Depths} {limits : Limits}
  {slots w w' : Nat} {id target : NodeId} {l : Node} {kids f : Forest} {strings : Array String}
  {numbers : Array Number} {x : Written}

/-! ## Listings -/

/-- What follows an opcode. -/
inductive OperandKind where
  | jump
  | string
  | number
  | slot
  | regExp
  | count
  | none
deriving DecidableEq, Repr

def Token.operand : Token → OperandKind
  | .goto | .ifEq | .ifNe | .jsr => .jump
  | .name | .bindName | .string | .catchScope => .string
  | .number => .number
  | .getVar | .setVar => .slot
  | .regExp => .regExp
  | .call | .new => .count
  | _ => .none

/-- How many bytes it has. -/
def OperandKind.size : OperandKind → Nat
  | .jump => 4
  | .string | .number | .slot | .regExp => 2
  | .count => 1
  | .none => 0

namespace Token

/-- Kinds whose operand is a string. -/
theorem operand_eq_string (h : k.operand = .string) :
    k = .name ∨ k = .bindName ∨ k = .string ∨ k = .catchScope := by
  revert h
  cases k <;> simp [operand]

theorem operand_eq_number (h : k.operand = .number) : k = .number := by
  revert h
  cases k <;> simp [operand]

theorem operand_eq_slot (h : k.operand = .slot) : k = .getVar ∨ k = .setVar := by
  revert h
  cases k <;> simp [operand]

theorem operand_eq_regExp (h : k.operand = .regExp) : k = .regExp := by
  revert h
  cases k <;> simp [operand]

end Token

/-- Exactly the branches have an operand that is a place. -/
theorem Token.isBranch_iff : k.isBranch ↔ k.operand = .jump := by
  cases k <;> simp [isBranch, operand]

/-- A node that is written as an instruction. -/
structure Op where
  id : NodeId
  node : Node
  /-- How many children it has besides the first one. -/
  args : Nat

namespace Op

def kind (o : Op) : Token := o.node.kind

/-- How many bytes are written for it. -/
def size (o : Op) : Nat := 1 + o.kind.operand.size

/-- Where it jumps. -/
def jump? (o : Op) : Option NodeId := if o.kind.operand = .jump then o.node.target? else none

end Op

/-- An entry of a listing. -/
inductive Item where
  | op (o : Op)
  | target (id : NodeId)

def Item.op? : Item → Option Op
  | .op o => some o
  | .target _ => none

def Item.target? : Item → Option NodeId
  | .op _ => none
  | .target id => some id

/-- The opcodes of a forest in postorder, with its targets. -/
def Forest.items : Forest → List Item
  | .nil => []
  | .cons id l kids rest =>
    (match l.kind with
      | .target => [.target id]
      | .function => []
      | kind =>
        kids.items ++ if kind.isBytecode then [.op ⟨id, l, kids.roots.length - 1⟩] else []) ++
      rest.items

/-- The places of the targets of a listing that starts at an offset. -/
def places : Nat → List Item → List (NodeId × Nat)
  | _, [] => []
  | offset, .target id :: rest => (id, offset) :: places offset rest
  | offset, .op o :: rest => places (offset + o.size) rest

/-- Where the operands of jumps stand in the code of instructions that starts at an offset, with
their targets. -/
def jumps : Nat → List Op → List (Nat × NodeId)
  | _, [] => []
  | offset, o :: rest => (o.jump?.map (offset + 1, ·)).toList ++ jumps (offset + o.size) rest

/-- An opcode with its operand. -/
structure Written where
  op : Op
  operand : Nat

namespace Written

open Assembler (littleEndian)

/-- The bytes of an opcode with its operand. -/
def bytes (x : Written) : List UInt8 :=
  UInt8.ofNat x.op.kind.code :: littleEndian x.operand x.op.kind.operand.size

/-- The operand is that of the node, where it is given what operand a target makes. -/
def Fits (strings : Array String) (numbers : Array Number) (jump : NodeId → Nat → Prop)
    (x : Written) : Prop :=
  match x.op.kind.operand with
  | .none => x.operand = 0
  | .jump => ∃ target, x.op.node.target? = some target ∧ jump target x.operand
  | .string =>
    ∃ s, x.op.node.string? = some s ∧ strings[x.operand]? = some s ∧ x.operand < 2 ^ 16
  | .number => ∃ n, x.op.node.number? = some n ∧ numbers[x.operand]? = some n ∧ x.operand < 2 ^ 16
  | .slot => x.op.node.attrs.get? .varIndex = some (.int x.operand) ∧ x.operand < 2 ^ 16
  | .regExp => x.op.node.attrs.get? .regExpIndex = some (.int x.operand)
  | .count => x.operand = x.op.args ∧ x.operand < 2 ^ 8

@[simp] theorem length_littleEndian (value : Int) (n : Nat) :
    (littleEndian value n).length = n := by
  induction n generalizing value with
  | zero => rfl
  | succ n ih => simp [littleEndian, ih]

@[simp] theorem length_bytes (x : Written) : x.bytes.length = x.op.size := by
  simp [bytes, Op.size, Nat.add_comm]

/-- More constants do no harm. -/
theorem Fits.mono {strings' : Array String} {numbers' : Array Number}
    (h : x.Fits strings numbers jump)
    (hs : ∀ (i : Nat) (s : String), strings[i]? = some s → strings'[i]? = some s)
    (hn : ∀ (i : Nat) (n : Number), numbers[i]? = some n → numbers'[i]? = some n) :
    x.Fits strings' numbers' jump := by
  unfold Fits at h ⊢
  cases hkind : x.op.kind.operand with
  | string =>
    simp only [hkind] at h ⊢
    obtain ⟨s, hnode, hfound, hlt⟩ := h
    exact ⟨s, hnode, hs _ _ hfound, hlt⟩
  | number =>
    simp only [hkind] at h ⊢
    obtain ⟨n, hnode, hfound, hlt⟩ := h
    exact ⟨n, hnode, hn _ _ hfound, hlt⟩
  | jump | slot | regExp | count | none =>
    simp only [hkind] at h ⊢
    exact h

/-- Instructions that are no jumps fit wherever targets are. -/
theorem Fits.of_jump?_eq_none (h : x.Fits strings numbers jump)
    (hnone : x.op.jump? = none) : x.Fits strings numbers jump' := by
  unfold Fits at h ⊢
  cases hkind : x.op.kind.operand with
  | jump =>
    simp only [hkind] at h
    obtain ⟨target, htarget, -⟩ := h
    simp [Op.jump?, hkind, htarget] at hnone
  | string | number | slot | regExp | count | none =>
    simp only [hkind] at h ⊢
    exact h

/-- What is asked of jumps may be weakened. -/
theorem Fits.imp (h : x.Fits strings numbers jump)
    (himp : ∀ target n, jump target n → jump' target n) : x.Fits strings numbers jump' := by
  unfold Fits at h ⊢
  cases hkind : x.op.kind.operand with
  | jump =>
    simp only [hkind] at h ⊢
    obtain ⟨target, htarget, hn⟩ := h
    exact ⟨target, htarget, himp _ _ hn⟩
  | string | number | slot | regExp | count | none =>
    simp only [hkind] at h ⊢
    exact h

/-- An instruction that jumps has a target. -/
theorem kind_of_jump? {o : Op} (h : o.jump? = some target) :
    o.kind.operand = .jump ∧ o.node.target? = some target := by
  unfold Op.jump? at h
  split at h
  · next hkind => exact ⟨hkind, h⟩
  · cases h

end Written

/-! ## Places -/

/-- How long the code of a listing is. -/
def codeSize (items : List Item) : Nat := ((items.filterMap Item.op?).map Op.size).sum

@[simp] theorem ops_op (o : Op) (items : List Item) :
    (Item.op o :: items).filterMap Item.op? = o :: items.filterMap Item.op? := rfl

@[simp] theorem ops_target (id : NodeId) (items : List Item) :
    (Item.target id :: items).filterMap Item.op? = items.filterMap Item.op? := rfl

/-- The places of two listings in a row. -/
theorem places_append (offset : Nat) (xs ys : List Item) :
    places offset (xs ++ ys) = places offset xs ++ places (offset + codeSize xs) ys := by
  induction xs generalizing offset with
  | nil => simp [places, codeSize]
  | cons x xs ih =>
    cases x with
    | op o => simp [places, ih, codeSize, Nat.add_assoc]
    | target id => simp [places, ih, codeSize]

/-- The jumps of two listings in a row. -/
theorem jumps_append (offset : Nat) (xs ys : List Op) :
    jumps offset (xs ++ ys) = jumps offset xs ++ jumps (offset + (xs.map Op.size).sum) ys := by
  induction xs generalizing offset with
  | nil => simp [jumps]
  | cons x xs ih => simp [jumps, ih, Nat.add_assoc]

/-- A target of a listing has a place. -/
theorem exists_place {items : List Item} (h : .target target ∈ items) (offset : Nat) :
    ∃ pc, (target, pc) ∈ places offset items := by
  induction items generalizing offset with
  | nil => cases h
  | cons item items ih =>
    cases item with
    | op o =>
      obtain ⟨pc, hpc⟩ := ih (by simpa using h) (offset + o.size)
      exact ⟨pc, hpc⟩
    | target id =>
      rcases List.mem_cons.mp h with h | h
      · cases h
        exact ⟨offset, by simp [places]⟩
      · obtain ⟨pc, hpc⟩ := ih h offset
        exact ⟨pc, by simp [places, hpc]⟩

/-- Each target has its place. -/
theorem map_fst_places (offset : Nat) (items : List Item) :
    (places offset items).map Prod.fst = items.filterMap Item.target? := by
  induction items generalizing offset with
  | nil => rfl
  | cons item items ih => cases item <;> simp [places, Item.target?, ih, List.filterMap_cons]

/-- The code is that of a listing, with the places of its targets in its jumps. -/
structure Assembler.Lists (a : Assembler) (items : List Item) (ws : List Written) : Prop where
  ops : ws.map Written.op = items.filterMap Item.op?
  code : a.code.toList = ws.flatMap Written.bytes
  fits : ∀ x ∈ ws, x.Fits a.strings.items a.numbers.items fun target n =>
    (target, n) ∈ places 0 items ∧ n < 2 ^ 31

/-- What is written is in the listing. -/
theorem mem_items_of_ops {items : List Item} {ws : List Written}
    (hops : ws.map Written.op = items.filterMap Item.op?) (hx : x ∈ ws) : .op x.op ∈ items := by
  have hmem : x.op ∈ items.filterMap Item.op? := hops ▸ List.mem_map_of_mem hx
  obtain ⟨item, hitem, heq⟩ := List.mem_filterMap.mp hmem
  cases item with
  | op o => exact Option.some.inj heq ▸ hitem
  | target => cases heq

/-- As many bytes as the instructions take. -/
theorem length_flatMap_bytes (ws : List Written) :
    (ws.flatMap Written.bytes).length = ((ws.map Written.op).map Op.size).sum := by
  induction ws with
  | nil => rfl
  | cons x ws ih => simp [ih]

/-! ## Listings of lowered forests -/

/-- What writing a node asks of it. -/
structure Node.Encodes (limits : Limits) (slots : Nat) (l : Node) (kids : Forest) : Prop where
  coded : l.Coded limits slots
  target : l.kind.isBranch → ∃ target, l.target? = some target
  leaf : l.kind = .target ∨ l.kind = .function → kids = .nil

/-- Where depths fit, jumps have targets. -/
theorem Forest.Flows.encodes (hflow : f.Flows depths w w')
    (hcoded : f.All fun l _ => l.Coded limits slots) : f.All (Node.Encodes limits slots) := by
  induction f generalizing w w' with
  | nil => trivial
  | cons id l kids rest ihk ihr =>
    obtain ⟨hleaf, u, v, hkids, hstep, hrest⟩ := hflow
    refine ⟨⟨hcoded.1, fun hbranch => ?_, hleaf⟩, ihk hkids hcoded.2.1, ihr hrest hcoded.2.2⟩
    obtain ⟨target, htarget, -⟩ := hstep.exists_target hbranch
    exact ⟨target, htarget⟩

/-- The items of a tree whose root is an ordinary node. -/
theorem Forest.items_tree (htarget : l.kind ≠ .target)
    (hfun : l.kind ≠ .function) : (Forest.tree id l kids).items = kids.items ++
      if l.kind.isBytecode then [.op ⟨id, l, kids.roots.length - 1⟩] else [] := by
  simp only [items, List.append_nil]

theorem Forest.items_cons (id : NodeId) (l : Node) (kids rest : Forest) :
    (Forest.cons id l kids rest).items = (Forest.tree id l kids).items ++ rest.items := by
  simp [items]

/-- Where an instruction of a listing comes from. -/
theorem Forest.mem_items_cons {rest : Forest} {o : Op}
    (ho : .op o ∈ (Forest.cons id l kids rest).items) :
    (o = ⟨id, l, kids.roots.length - 1⟩ ∧ l.kind.isBytecode = true) ∨ .op o ∈ kids.items ∨
      .op o ∈ rest.items := by
  rw [items_cons] at ho
  rcases List.mem_append.mp ho with ho | ho
  · by_cases htarget : l.kind = .target
    · simp [items, htarget] at ho
    by_cases hfun : l.kind = .function
    · simp [items, hfun] at ho
    rw [items_tree htarget hfun] at ho
    rcases List.mem_append.mp ho with ho | ho
    · exact .inr (.inl ho)
    · split at ho
      · next hbyte => exact .inl ⟨by simpa using ho, hbyte⟩
      · cases ho
  · exact .inr (.inr ho)

/-- The targets of a listing are nodes of the forest, in their order. -/
theorem Forest.targets_sublist_ids (f : Forest) :
    (f.items.filterMap Item.target?).Sublist f.ids := by
  induction f with
  | nil => simp [items]
  | cons id l kids rest ihk ihr =>
    rw [items_cons, List.filterMap_append, ids_cons, ← List.cons_append]
    refine List.Sublist.append ?_ ihr
    by_cases htarget : l.kind = .target
    · simp [items, htarget, Item.target?]
    by_cases hfun : l.kind = .function
    · simp [items, hfun]
    rw [items_tree htarget hfun, List.filterMap_append]
    have hnone : (if l.kind.isBytecode then [Item.op ⟨id, l, kids.roots.length - 1⟩]
        else []).filterMap Item.target? = [] := by
      split <;> rfl
    rw [hnone, List.append_nil]
    exact ihk.cons id

/-- A target has one place. -/
theorem Forest.place_unique (hnodup : f.ids.Nodup) {offset m n : Nat}
    (hm : (target, m) ∈ places offset f.items) (hn : (target, n) ∈ places offset f.items) :
    m = n := by
  have hnodup' : ((places offset f.items).map Prod.fst).Nodup := by
    rw [map_fst_places]
    exact f.targets_sublist_ids.nodup hnodup
  exact congrArg Prod.snd (List.inj_on_of_nodup_map hnodup' hm hn rfl)

/-- The targets of a forest are in its listing. -/
theorem Forest.Marks.mem_items {depth : Nat} (hall : f.All (Node.Encodes limits slots))
    (h : f.Marks w target depth) : .target target ∈ f.items := by
  induction f generalizing w with
  | nil => exact h.elim
  | cons id l kids rest ihk ihr =>
    obtain ⟨hnode, hkids, hrest⟩ := hall
    rw [items_cons]
    rcases h with ⟨hkind, rfl, -⟩ | h | h
    · simp [items, hkind]
    · by_cases hleaf : l.kind = .target ∨ l.kind = .function
      · rw [hnode.leaf hleaf] at h
        exact h.elim
      · rw [not_or] at hleaf
        rw [items_tree hleaf.1 hleaf.2]
        simp [ihk hkids h]
    · simp [ihr hrest h]

/-- What all nodes of a forest have, the nodes of its instructions have. -/
theorem Forest.All.of_mem_items {P : Node → Forest → Prop} (hall : f.All P) {o : Op}
    (ho : .op o ∈ f.items) : (∃ kids, P o.node kids) ∧ o.kind.isBytecode = true := by
  induction f with
  | nil => cases ho
  | cons id l kids rest ihk ihr =>
    obtain ⟨hnode, hkids, hrest⟩ := hall
    rcases mem_items_cons ho with ⟨rfl, hbyte⟩ | ho | ho
    · exact ⟨⟨kids, hnode⟩, hbyte⟩
    · exact ihk hkids ho
    · exact ihr hrest ho

/-- The jumps of a listing lead to targets. -/
theorem Forest.Flows.target_of_mem_items
    (hflow : f.Flows depths w w') {o : Op} (ho : .op o ∈ f.items) (hjump : o.jump? = some target) :
    ∃ depth, depths.target target depth := by
  induction f generalizing w w' with
  | nil => cases ho
  | cons id l kids rest ihk ihr =>
    obtain ⟨-, u, v, hkids, hstep, hrest⟩ := hflow
    rcases mem_items_cons ho with ⟨rfl, -⟩ | ho | ho
    · obtain ⟨hkind, hto⟩ := Written.kind_of_jump? hjump
      obtain ⟨target', hto', hmark⟩ := hstep.exists_target (Token.isBranch_iff.mpr hkind)
      obtain rfl : target' = target := Option.some.inj (hto'.symm.trans hto)
      exact ⟨u, hmark⟩
    · exact ihk hkids ho
    · exact ihr hrest ho

end ScriptEngine
