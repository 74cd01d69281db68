import ScriptEngine.Proofs.Decoding
import ScriptEngine.Proofs.Outcomes

/-!
# The code of any body

What is known of code whatever the tree is that it was written for: it is made of the instructions
of the nodes that are written, and an operand that stands for an entry of a table is the index of
that entry. The stack is noted to be as deep as the nodes are nested.
-/

namespace ScriptEngine

open Forest

variable {t : Tree} {ids : List NodeId} {offset fuel depth : Nat} {id : NodeId} {e : Emitter}
  {body : Body}

/-! ## Instructions -/

namespace Tree

variable (t : Tree)

/-- How long the code of some nodes is. -/
def codeLength (ids : List NodeId) : Nat := (ids.map fun id => 1 + t.operandSize id).sum

/-- The operand of a jump stands at an offset. -/
def JumpAt (ids : List NodeId) (offset : Nat) : Prop :=
  ∃ before id behind, ids = before ++ id :: behind ∧ (t.kind id).operand = .jump ∧
    offset = t.codeLength before + 1

end Tree

/-- The instruction of a node, with the bytes of its operand. -/
structure Encoded where
  id : NodeId
  operand : List UInt8

namespace Encoded

def bytes (t : Tree) (x : Encoded) : List UInt8 := UInt8.ofNat (t.kind x.id).code :: x.operand

/-- The operand is as long as that of its node, and is the index of what it stands for. Only the
indices of regular expressions may be too large for it. -/
structure Refers (t : Tree) (strings : Array String) (numbers : Array Number)
    (regexps : List RegExpLiteral) (x : Encoded) : Prop where
  length_eq : x.operand.length = t.operandSize x.id
  index : ∀ r, t.reference? x.id = some r → ∃ i, r.IsAt strings numbers regexps i ∧
    x.operand = Assembler.littleEndian i 2 ∧ (r.isRegExp = false → i < 2 ^ 16)

end Encoded

/-! ## What an emitter has written -/

/-- The emitter has written instructions; where jumps wait for their offsets, there are jumps. -/
structure Emitter.Codes (t : Tree) (body : Body) (e : Emitter) (xs : List Encoded) : Prop where
  code : e.out.code.toList = xs.flatMap (Encoded.bytes t)
  refers : ∀ x ∈ xs, x.Refers t e.out.strings.items e.out.numbers.items body.regexps
  fixups : ∀ f ∈ e.fixups, t.JumpAt (xs.map Encoded.id) f.1

namespace Tree.JumpAt

private theorem append_right (h : t.JumpAt ids offset) (behind : List NodeId) :
    t.JumpAt (ids ++ behind) offset := by
  obtain ⟨before, id, rest, rfl, hjump, hoffset⟩ := h
  exact ⟨before, id, rest ++ behind, by simp, hjump, hoffset⟩

private theorem last (h : (t.kind id).operand = .jump) :
    t.JumpAt (ids ++ [id]) (t.codeLength ids + 1) := ⟨ids, id, [], rfl, h, rfl⟩

end Tree.JumpAt

private theorem Emits.ends {α : Type} {m : EmitM α} {refused : CodeError → Prop}
    {p : α → Emitter → Prop} (h : Emits m e refused p) : Ends m e p := by
  intro a e' hrun
  obtain ⟨r, hr, hpost⟩ := h
  obtain rfl : r = .ok (a, e') := Except.ok.inj (hr.symm.trans hrun)
  exact hpost

namespace Emitter

variable {e' : Emitter} {xs : List Encoded}

/-- What is looked at in an emitter. -/
def coded (e : Emitter) : Array UInt8 × StringPool × NumberPool × List (Nat × NodeId) :=
  (e.out.code, e.out.strings, e.out.numbers, e.fixups)

namespace Codes

private theorem empty : Codes t body {} [] := ⟨rfl, by simp, by simp⟩

/-- Notes about the code do not matter. -/
theorem note (h : e.Codes t body xs) (heq : e'.coded = e.coded) : e'.Codes t body xs := by
  obtain ⟨hcode, hstrings, hnumbers, hfixups⟩ : e'.out.code = e.out.code ∧
      e'.out.strings = e.out.strings ∧ e'.out.numbers = e.out.numbers ∧ e'.fixups = e.fixups := by
    simpa [coded] using heq
  exact ⟨hcode ▸ h.code, hstrings ▸ hnumbers ▸ h.refers, hfixups ▸ h.fixups⟩

private theorem length_bytes (h : ∀ x ∈ xs, x.operand.length = t.operandSize x.id) :
    (xs.flatMap (Encoded.bytes t)).length = t.codeLength (xs.map Encoded.id) := by
  induction xs with
  | nil => rfl
  | cons x xs ih =>
    have hx := h x (by simp)
    have hrest := ih fun y hy => h y (by simp [hy])
    simp only [Tree.codeLength] at hrest
    simp [Tree.codeLength, Encoded.bytes, hx, hrest]
    omega

/-- An instruction is written behind the others. -/
theorem write {n : Nat} (h : e.Codes t body xs) (hputs : Puts t body id e e' n) :
    e'.Codes t body (xs ++ [⟨id, Assembler.littleEndian n (t.operandSize id)⟩]) := by
  refine ⟨by simp [hputs.code, h.code, Encoded.bytes], fun y hy => ?_, fun f hf => ?_⟩
  · rcases List.mem_append.mp hy with hy | hy
    · obtain ⟨hlength, hindex⟩ := h.refers y hy
      refine ⟨hlength, fun r hr => ?_⟩
      obtain ⟨i, hat, hbytes⟩ := hindex r hr
      refine ⟨i, ?_, hbytes⟩
      cases r with
      | string s => exact hputs.strings i s hat
      | number x => exact hputs.numbers i x hat
      | slot k => exact hat
      | regExp k => exact hat
    · rw [List.mem_singleton.mp hy]
      refine ⟨by simp, fun r hr => ?_⟩
      obtain ⟨hat, hlt⟩ := hputs.index r hr
      exact ⟨n, hat, by rw [Tree.operandSize_of_reference? hr], hlt⟩
  · rw [List.map_append]
    rcases hputs.fixups with ⟨-, heq⟩ | ⟨hjump, target, -, heq⟩
    · exact (h.fixups f (heq ▸ hf)).append_right _
    rcases List.mem_cons.mp (heq ▸ hf) with rfl | hf
    · have hpc : e.out.pc = t.codeLength (xs.map Encoded.id) := by
        rw [Assembler.pc, ← Array.length_toList, h.code,
          length_bytes fun y hy => (h.refers y hy).length_eq]
      rw [hpc]
      exact .last hjump
    · exact (h.fixups f hf).append_right _

end Codes

/-! ## Forests -/

/-- The notes before the children of a node. -/
theorem steady_noteBefore : Steady (fun e => (e.coded, e.out.maxStack)) (noteBefore t id) := by
  have htry : Steady (fun e : Emitter => (e.coded, e.out.maxStack)) (do
      if t.kind id = .tryStmt then
        modify fun e =>
          { e with tryDepth := e.tryDepth + 1, out := e.out.noteTryDepth (e.tryDepth + 1) } :
          EmitM Unit) :=
    Steady.ite (Steady.modify fun _ => rfl) (Steady.pure _)
  unfold noteBefore
  cases t.line id with
  | some line =>
    refine Steady.bind ?_ fun _ => htry
    exact Steady.modify fun _ => rfl
  | none => exact (Steady.pure ()).bind fun _ => htry

/-- The notes behind them: the operands and the node itself have been on the stack. -/
theorem ends_noteBehind (depth : Nat) : Ends (noteBehind t depth id) e fun _ e' =>
    e'.coded = e.coded ∧ e'.out.maxStack = max e.out.maxStack (depth + 1) := by
  have hstack {e1 : Emitter} (h1 : e1.coded = e.coded ∧ e1.out.maxStack = e.out.maxStack) :
      Ends (modifyOut (·.noteStack (depth + 1))) e1 fun _ e' =>
        e'.coded = e.coded ∧ e'.out.maxStack = max e.out.maxStack (depth + 1) :=
    Ends.modify ⟨h1.1, by rw [← h1.2]; rfl⟩
  unfold noteBehind
  refine Ends.ite (fun _ => ?_) fun _ => hstack ⟨rfl, rfl⟩
  refine Ends.bind (p := fun _ e1 => e1.coded = e.coded ∧ e1.out.maxStack = e.out.maxStack) ?_
    fun _ _ h1 => hstack h1
  exact Ends.modify ⟨rfl, rfl⟩

end Emitter

/-- The nodes of a forest that are written, in the order of the code. -/
def Forest.written (f : Forest) : List NodeId := (f.items.filterMap Item.op?).map Op.id

/-- Nothing is written for the node or for what is below it. -/
def Node.Skipped (l : Node) : Prop := l.kind = .target ∨ l.kind = .function

instance (l : Node) : Decidable l.Skipped := inferInstanceAs (Decidable (_ ∨ _))

/-- How deep the nodes of a forest are nested, apart from those that are skipped. -/
def Forest.height : Forest → Nat
  | .nil => 0
  | .cons _ l kids rest => max (if l.Skipped then 0 else kids.height + 1) rest.height

private theorem Forest.written_cons (id : NodeId) (l : Node) (kids rest : Forest) :
    (Forest.cons id l kids rest).written = (Forest.tree id l kids).written ++ rest.written := by
  rw [written, items_cons, List.filterMap_append, List.map_append, written, written]

private theorem Forest.written_tree {l : Node} {kids : Forest}
    (htarget : l.kind ≠ .target) (hfun : l.kind ≠ .function) : (Forest.tree id l kids).written =
      kids.written ++ if l.kind.isBytecode then [id] else [] := by
  rw [written, items_tree htarget hfun]
  split <;> simp [written, Item.op?]

namespace Emitter

variable {xs : List Encoded}

/-- What writing a forest adds: the instructions of its nodes, and a note of their depth. -/
structure Adds (t : Tree) (body : Body) (xs : List Encoded) (depth : Nat) (f : Forest)
    (e e' : Emitter) : Prop where
  codes : ∃ ys, e'.Codes t body (xs ++ ys) ∧ ys.map Encoded.id = f.written
  stack : max e'.out.maxStack depth = max e.out.maxStack (depth + f.height)

/-- A node is written with what is below it, if writing that is known to add it. -/
theorem ends_node
    (hkids : ∀ {e : Emitter} {xs : List Encoded}, e.Codes t body xs →
      Ends ((t.children id).forM (emitNode t body fuel (depth + 1))) e fun _ e' =>
        Adds t body xs (depth + 1) (t.forest fuel (t.children id)) e e')
    (h : e.Codes t body xs) : Ends (emitNode t body (fuel + 1) depth id) e fun _ e' =>
      Adds t body xs depth (.tree id (t.label id) (t.forest fuel (t.children id))) e e' := by
  have hkind : t.kind id = (t.label id).kind := t.kind_eq_label id
  by_cases htarget : (t.label id).kind = .target
  · rw [emitNode, hkind, htarget]
    refine Ends.modify ⟨⟨[], ?_, ?_⟩, ?_⟩
    · rw [List.append_nil]
      exact h.note rfl
    · simp [written, items, htarget, Item.op?]
    · simp [height, Node.Skipped, htarget]
  by_cases hfun : (t.label id).kind = .function
  · rw [emitNode, hkind, hfun]
    refine Ends.pure ⟨⟨[], by simpa using h, ?_⟩, ?_⟩
    · simp [written, items, hfun]
    · simp [height, Node.Skipped, hfun]
  rw [emitNode_eq rfl htarget hfun]
  refine steady_noteBefore.ends_bind fun _ e1 h1 => ?_
  obtain ⟨hcoded1, hstack1⟩ := Prod.mk.inj h1
  refine (hkids (h.note hcoded1)).bind fun _ e2 he2 =>
    (ends_noteBehind depth).bind fun _ e3 he3 => ?_
  obtain ⟨⟨ys, h2, hys⟩, hstack2⟩ := he2
  obtain ⟨hcoded3, hstack3⟩ := he3
  have h3 := h2.note hcoded3
  have hstack : e3.out.maxStack = max e.out.maxStack
      (depth + (Forest.tree id (t.label id) (t.forest fuel (t.children id))).height) := by
    simp only [height, Node.Skipped, htarget, hfun, or_self, if_false, Nat.max_zero]
    omega
  rw [← hkind]
  refine Ends.ite (fun hbyte => ?_) fun hbyte => ?_
  · have hop := (emits_opcode (e := e3) hbyte).bind fun _ _ he => he ▸ emits_operand t body id e3
    refine hop.ends.mono ?_
    rintro _ e4 ⟨n, hputs⟩
    have h4 := h3.write hputs
    refine ⟨⟨ys ++ [_], by rwa [← List.append_assoc], ?_⟩, ?_⟩
    · rw [written_tree htarget hfun, ← hkind, if_pos hbyte, List.map_append, hys]
      rfl
    · rw [hputs.stack, hstack]
      omega
  · refine Ends.pure ⟨⟨ys, h3, ?_⟩, by rw [hstack]; omega⟩
    rw [written_tree htarget hfun, ← hkind, if_neg hbyte, hys, List.append_nil]

/-- Nodes are written one after the other, with what is below them. The induction is on the levels
that are left. -/
theorem ends_forest (h : e.Codes t body xs) :
    Ends (ids.forM (emitNode t body fuel depth)) e fun _ e' =>
      Adds t body xs depth (t.forest fuel ids) e e' := by
  induction fuel generalizing depth ids e xs with
  | zero =>
    cases ids with
    | nil => exact Ends.pure ⟨⟨[], by simpa using h, rfl⟩, rfl⟩
    | cons id rest =>
      rw [List.forM_eq_forM, List.forM_cons]
      exact Ends.bind (p := fun _ _ => False) (fun _ _ hrun => nomatch hrun) nofun
  | succ fuel ihk =>
    induction ids generalizing e xs with
    | nil => exact Ends.pure ⟨⟨[], by simpa using h, rfl⟩, rfl⟩
    | cons id rest ihr =>
      rw [List.forM_eq_forM, List.forM_cons]
      refine (ends_node (fun h => ihk h) h).bind fun _ e1 ⟨⟨ys, h1, hys⟩, hstack1⟩ => ?_
      refine (ihr h1).mono fun _ e2 ⟨⟨zs, h2, hzs⟩, hstack2⟩ => ?_
      have hforest : t.forest (fuel + 1) (id :: rest) = .cons id (t.label id)
        (t.forest fuel (t.children id)) (t.forest (fuel + 1) rest) := rfl
      rw [hforest]
      refine ⟨⟨ys ++ zs, by rwa [← List.append_assoc], ?_⟩, ?_⟩
      · rw [written_cons, List.map_append, hys, hzs]
      · simp only [height, Nat.max_zero] at hstack1 hstack2 ⊢
        omega

/-! ## Jumps -/

/-- Filling in the offset of a jump changes no other operand. -/
theorem Codes.patchJump (h : e.Codes t body xs) {target : NodeId}
    (hjump : t.JumpAt (xs.map Encoded.id) offset) : Ends (patchJump offset target) e fun _ e' =>
      (∃ ys, e'.Codes t body ys ∧ ys.map Encoded.id = xs.map Encoded.id) ∧
        e'.out.maxStack = e.out.maxStack := by
  obtain ⟨_, _, _, hids, hkind, rfl⟩ := hjump
  obtain ⟨front, rest, rfl, rfl, hrest⟩ := List.map_eq_append_iff.mp hids
  obtain ⟨x, behind, rfl, rfl, rfl⟩ := List.map_eq_cons_iff.mp hrest
  cases hlookup : e.targets.lookup target with
  | none =>
    refine Ends.get_bind ?_
    simp only [hlookup]
    exact fun _ _ hrun => nomatch hrun
  | some pc =>
    have hlength (y : Encoded) (hy : y ∈ front ++ x :: behind) := (h.refers y hy).length_eq
    have hsize : x.operand.length = 4 := by
      rw [hlength x (by simp), Tree.operandSize, hkind]
    have hfront : t.codeLength (front.map Encoded.id) + 1 =
        (front.flatMap (Encoded.bytes t) ++ [UInt8.ofNat (t.kind x.id).code]).length := by
      rw [List.length_append, length_bytes fun y hy => hlength y (by simp [hy])]
      rfl
    rw [hfront]
    refine (emits_patchJump _ x.operand (behind.flatMap (Encoded.bytes t)) ?_ hsize
      hlookup).ends.mono ?_
    · rw [h.code]
      simp [Encoded.bytes]
    · rintro _ _ ⟨-, code, rfl, hcode⟩
      have hpatched : (Encoded.mk x.id (Assembler.littleEndian pc 4)).Refers t e.out.strings.items
          e.out.numbers.items body.regexps :=
        ⟨by simp [Tree.operandSize, hkind], by simp [Tree.reference?, hkind]⟩
      refine ⟨⟨front ++ ⟨x.id, Assembler.littleEndian pc 4⟩ :: behind,
        ⟨?_, fun y hy => ?_, ?_⟩, by simp⟩, rfl⟩
      · rw [hcode]
        simp [Encoded.bytes]
      · rcases List.mem_append.mp hy with hy | hy
        · exact h.refers y (by simp [hy])
        rcases List.mem_cons.mp hy with rfl | hy
        · exact hpatched
        · exact h.refers y (by simp [hy])
      · simpa using h.fixups

private theorem Codes.patchJumps {fixups : List (Nat × NodeId)} (h : e.Codes t body xs)
    (hjumps : ∀ f ∈ fixups, t.JumpAt (xs.map Encoded.id) f.1) :
    Ends (fixups.forM fun (operand, target) => Emitter.patchJump operand target) e fun _ e' =>
      (∃ ys, e'.Codes t body ys ∧ ys.map Encoded.id = xs.map Encoded.id) ∧
        e'.out.maxStack = e.out.maxStack := by
  induction fixups generalizing e xs with
  | nil => exact Ends.pure ⟨⟨xs, h, rfl⟩, rfl⟩
  | cons f rest ih =>
    rw [List.forM_eq_forM, List.forM_cons]
    refine (h.patchJump (hjumps f (by simp))).bind fun _ e1 ⟨⟨ys, h1, hys⟩, hstack1⟩ => ?_
    refine (ih h1 fun f' hf' => hys ▸ hjumps f' (by simp [hf'])).mono ?_
    rintro _ e2 ⟨⟨zs, h2, hzs⟩, hstack2⟩
    exact ⟨⟨zs, h2, hzs.trans hys⟩, hstack2.trans hstack1⟩

end Emitter

/-- The code is that of instructions whose operands are indices into the tables. -/
structure Assembler.Encodes (a : Assembler) (t : Tree) (regexps : List RegExpLiteral)
    (xs : List Encoded) : Prop where
  code : a.code.toList = xs.flatMap (Encoded.bytes t)
  refers : ∀ x ∈ xs, x.Refers t a.strings.items a.numbers.items regexps

/-- Code that is written for a body is that of the nodes of its statements, and the stack is noted
to be as deep as they are nested. -/
theorem Program.exists_of_emit {p : Program} {j : BodyId} {out : Assembler}
    (hout : p.emit (p.body j) = .ok (.ok out)) :
    (∃ xs, out.Encodes p.tree (p.body j).regexps xs ∧
      xs.map Encoded.id = (p.statements j).written) ∧
    out.maxStack = (p.statements j).height := by
  have hends : Ends (Emitter.emitBody p (p.body j)) {} fun _ e' =>
      (∃ xs, e'.Codes p.tree (p.body j) xs ∧ xs.map Encoded.id = (p.statements j).written) ∧
        e'.out.maxStack = (p.statements j).height := by
    refine (Emitter.ends_forest .empty).bind fun _ e1 ⟨⟨xs, h1, hxs⟩, hstack1⟩ => ?_
    refine Ends.bind (p := fun _ e2 => e2.coded = e1.coded ∧ e2.out.maxStack = e1.out.maxStack)
      (Ends.modify ⟨rfl, rfl⟩) fun _ e2 ⟨hcoded, hstack2⟩ => Ends.get_bind ?_
    have h2 := h1.note hcoded
    refine (h2.patchJumps fun f hf => h2.fixups f (by simpa using hf)).mono ?_
    rintro _ e3 ⟨⟨ys, h3, hys⟩, hstack3⟩
    refine ⟨⟨ys, h3, hys.trans hxs⟩, ?_⟩
    rw [hstack3, hstack2]
    simpa [statements] using hstack1
  unfold emit at hout
  cases hrun : ((Emitter.emitBody p (p.body j)).run {}).run with
  | error fault =>
    rw [hrun] at hout
    cases hout
  | ok r =>
    rw [hrun] at hout
    cases r with
    | error error => cases hout
    | ok end_ =>
      cases hout
      obtain ⟨⟨xs, hcodes, hxs⟩, hstack⟩ := hends _ _ hrun
      exact ⟨⟨xs, ⟨hcodes.code, hcodes.refers⟩, hxs⟩, hstack⟩

end ScriptEngine
