import ScriptEngine.Proofs.Emission

/-!
# Reading code

`decode` reads code from left to right: an opcode, and then as many bytes as its operand has. The
code of a lowered body is read as the listing of the body.
-/

namespace ScriptEngine

variable {n offset pc first slots : Nat} {items : List Item} {L : Layout} {s : LoweringState}
  {j : BodyId} {out a : Assembler} {ws : List Written} {x : Written} {limits : Limits} {f : Forest}
  {config : Config}

/-! ## Operands -/

/-- The number that bytes spell, low byte first. -/
def unsignedValue : List UInt8 → Nat
  | [] => 0
  | b :: rest => b.toNat + 256 * unsignedValue rest

/-- The operand that bytes spell. Offsets are signed numbers of four bytes, all others have no
sign. -/
def OperandKind.value (kind : OperandKind) (bytes : List UInt8) : Int :=
  match kind with
  | .jump =>
    if unsignedValue bytes < 2 ^ 31 then unsignedValue bytes
    else (unsignedValue bytes : Int) - 2 ^ 32
  | _ => unsignedValue bytes

/-- Numbers are read back as far as their bytes go. -/
theorem unsignedValue_littleEndian_mod (value n : Nat) :
    unsignedValue (Assembler.littleEndian value n) = value % 256 ^ n := by
  induction n generalizing value with
  | zero => simp [Assembler.littleEndian, unsignedValue, Nat.mod_one]
  | succ n ih =>
    have hbyte : (UInt8.ofNat ((value : Int) % 256).toNat).toNat = value % 256 := by
      have hcast : ((value : Int) % 256).toNat = value % 256 := by omega
      rw [hcast, UInt8.toNat_ofNat']
      omega
    have hrest : ((value : Int) / 256) = ((value / 256 : Nat) : Int) := by omega
    rw [Assembler.littleEndian, unsignedValue, hbyte, hrest, ih, Nat.pow_succ', Nat.mod_mul]

/-- Numbers that fit are read as they were written. -/
theorem unsignedValue_littleEndian {value : Nat} (h : value < 256 ^ n) :
    unsignedValue (Assembler.littleEndian value n) = value := by
  rw [unsignedValue_littleEndian_mod, Nat.mod_eq_of_lt h]

/-! ## Instructions -/

/-- An instruction of the code. -/
structure Instruction where
  offset : Nat
  op : Token
  operand : Int
deriving DecidableEq, Repr

/-- Where the next instruction stands. -/
def Instruction.next (i : Instruction) : Nat := i.offset + 1 + i.op.operand.size

/-- Reads code that stands at an offset. There is nothing to read if a byte is no opcode or an
operand is cut off. -/
def decode (offset : Nat) : List UInt8 → Option (List Instruction)
  | [] => some []
  | byte :: rest =>
    match Token.ofOpcode? byte.toNat with
    | none => none
    | some op =>
      let n := op.operand.size
      if n ≤ rest.length then
        (decode (offset + 1 + n) (rest.drop n)).map
          (⟨offset, op, op.operand.value (rest.take n)⟩ :: ·)
      else none
termination_by bytes => bytes.length
decreasing_by exact Nat.lt_succ_of_le (List.length_drop ▸ Nat.sub_le _ _)

/-- The instructions of the unit. -/
def CompiledUnit.instructions? (u : CompiledUnit) :
    Option (List Instruction) := decode 0 u.code.toList

/-- Opcodes are read back. -/
theorem Token.ofOpcode?_code {k : Token} (h : k.isBytecode) :
    ofOpcode? (UInt8.ofNat k.code).toNat = some k := by
  have hlt : k.code < 256 := by
    have hle : k.code ≤ lastBytecode.code := by
      simp only [isBytecode, Bool.and_eq_true, decide_eq_true_eq] at h
      exact h.2
    exact Nat.lt_of_le_of_lt hle (by decide)
  rw [UInt8.toNat_ofNat', Nat.mod_eq_of_lt hlt, ofOpcode?, ofCode?_code]
  simp [h]

/-- Where written instructions stand, from an offset on. -/
def standing : Nat → List Written → List (Nat × Written)
  | _, [] => []
  | offset, x :: rest => (offset, x) :: standing (offset + x.op.size) rest

/-- What is read where a written instruction stands. -/
def Written.read (offset : Nat) (x : Written) : Instruction :=
  ⟨offset, x.op.kind,
    x.op.kind.operand.value (Assembler.littleEndian x.operand x.op.kind.operand.size)⟩

/-- Written instructions are read back. -/
theorem decode_bytes (offset : Nat) (hws : ∀ x ∈ ws, x.op.kind.isBytecode = true) :
    decode offset (ws.flatMap Written.bytes) =
      some ((standing offset ws).map fun (offset, x) => x.read offset) := by
  induction ws generalizing offset with
  | nil => simp [decode, standing]
  | cons x ws ih =>
    have hrest := ih (offset + x.op.size) fun y hy => hws y (by simp [hy])
    have hsize : offset + 1 + x.op.kind.operand.size = offset + x.op.size := by
      rw [Op.size, Nat.add_assoc]
    rw [List.flatMap_cons, Written.bytes, List.cons_append, decode,
      Token.ofOpcode?_code (hws x (by simp))]
    dsimp only
    rw [if_pos (by simp), List.drop_left' (by simp), List.take_left' (by simp), hsize, hrest]
    rfl

/-- The operand has room in its bytes. -/
def Written.Small (x : Written) : Prop :=
  x.operand < 256 ^ x.op.kind.operand.size ∧ (x.op.kind.operand = .jump → x.operand < 2 ^ 31)

private theorem Written.Small.read_eq (h : x.Small) (offset : Nat) :
    x.read offset = ⟨offset, x.op.kind, x.operand⟩ := by
  unfold Written.read OperandKind.value
  rw [unsignedValue_littleEndian h.1]
  split
  · next hkind => rw [if_pos (h.2 hkind)]
  · rfl

/-- What stands somewhere is in the listing. -/
theorem mem_of_standing (h : (pc, x) ∈ standing offset ws) : x ∈ ws := by
  induction ws generalizing offset with
  | nil => cases h
  | cons y ws ih =>
    rcases List.mem_cons.mp h with heq | h
    · exact List.mem_cons.mpr (.inl (Prod.mk.inj heq).2)
    · exact List.mem_cons_of_mem _ (ih h)

/-- The places of a listing are boundaries between its instructions, or the end of the code. -/
theorem boundary_of_place {target : NodeId}
    (hops : ws.map Written.op = items.filterMap Item.op?) (h : (target, pc) ∈ places offset items) :
    pc = offset + codeSize items ∨ ∃ x, (pc, x) ∈ standing offset ws := by
  induction items generalizing offset ws with
  | nil => cases h
  | cons item items ih =>
    cases item with
    | op o =>
      obtain ⟨x, ws, rfl⟩ : ∃ x rest, ws = x :: rest :=
        List.exists_cons_of_ne_nil (by rintro rfl; simp at hops)
      obtain ⟨rfl, hrest⟩ : x.op = o ∧ ws.map Written.op = items.filterMap Item.op? := by
        simpa using hops
      rcases ih hrest h with rfl | ⟨y, hy⟩
      · exact .inl (by simp [codeSize, Nat.add_assoc])
      · exact .inr ⟨y, by simp [standing, hy]⟩
    | target id =>
      have hsize : codeSize (.target id :: items) = codeSize items := by simp [codeSize]
      rcases List.mem_cons.mp h with heq | h
      · obtain ⟨rfl, rfl⟩ : target = id ∧ pc = offset := by simpa using heq
        cases ws with
        | nil =>
          have hnil : codeSize items = 0 := by
            rw [codeSize, ← ops_target target, ← hops]
            rfl
          exact .inl (by omega)
        | cons x ws => exact .inr ⟨x, by simp [standing]⟩
      · rw [hsize]
        exact ih hops h

/-! ## Listings of lowered bodies -/

/-- The operands of a listing have room in their bytes, unless there are too many regular
expressions. -/
theorem Assembler.Lists.small (h : a.Lists f.items ws)
    (hcoded : f.All fun l _ => l.Coded limits slots) (hx : x ∈ ws)
    (hregexps : x.op.kind = .regExp → limits.regexps ≤ 2 ^ 16) : x.Small := by
  obtain ⟨⟨-, hnode⟩, -⟩ := hcoded.of_mem_items (mem_items_of_ops h.ops hx)
  have hfits := h.fits x hx
  unfold Written.Fits at hfits
  unfold Written.Small
  cases hkind : x.op.kind.operand with
  | none =>
    simp only [hkind] at hfits
    simp [hfits, OperandKind.size]
  | jump =>
    simp only [hkind] at hfits
    obtain ⟨target, -, -, hlt⟩ := hfits
    exact ⟨by simp only [OperandKind.size]; omega, fun _ => hlt⟩
  | string =>
    simp only [hkind] at hfits
    obtain ⟨s, -, -, hlt⟩ := hfits
    exact ⟨hlt, fun hk => (by cases hk)⟩
  | number =>
    simp only [hkind] at hfits
    obtain ⟨n, -, -, hlt⟩ := hfits
    exact ⟨hlt, fun hk => (by cases hk)⟩
  | slot =>
    simp only [hkind] at hfits
    exact ⟨hfits.2, fun hk => (by cases hk)⟩
  | count =>
    simp only [hkind] at hfits
    exact ⟨hfits.2, fun hk => (by cases hk)⟩
  | regExp =>
    simp only [hkind] at hfits
    have hreg := Token.operand_eq_regExp hkind
    obtain ⟨i, hi, hlt⟩ := hnode.regExp hreg
    have heq : (x.operand : Int) = i := by simpa using hfits.symm.trans hi
    have hle := hregexps hreg
    exact ⟨by simp only [OperandKind.size]; omega, fun hk => (by cases hk)⟩

/-- A jump of a listing leads to the place of its target. -/
theorem Assembler.Lists.read_jump (h : a.Lists f.items ws)
    (hcoded : f.All fun l _ => l.Coded limits slots) (hx : x ∈ ws)
    (hkind : x.op.kind.operand = .jump) (offset : Nat) :
    (x.read offset).operand = x.operand ∧
      ∃ target, x.op.node.target? = some target ∧ (target, x.operand) ∈ places 0 f.items := by
  have hsmall := h.small hcoded hx fun hreg => (by simp [hreg, Token.operand] at hkind)
  have hfits := h.fits x hx
  simp only [Written.Fits, hkind] at hfits
  obtain ⟨target, htarget, hfound, -⟩ := hfits
  exact ⟨by rw [hsmall.read_eq], target, htarget, hfound⟩

/-- The size of the code is that of its listing. -/
theorem Assembler.Lists.size_eq (h : a.Lists items ws) : a.code.size = codeSize items := by
  rw [← Array.length_toList, h.code, length_flatMap_bytes, h.ops, codeSize]

/-- The code of a listing is read as its instructions. -/
theorem Assembler.Lists.decode_eq (h : a.Lists f.items ws)
    (hcoded : f.All fun l _ => l.Coded limits slots) :
    decode 0 a.code.toList = some ((standing 0 ws).map fun (offset, x) => x.read offset) := by
  rw [h.code]
  exact decode_bytes 0 fun x hx => (hcoded.of_mem_items (mem_items_of_ops h.ops hx)).2

/-- The code of the unit is read as a listing: it has the instructions of the listing, and each
operand is the one that its node asks for. The operand of a jump is the only place of its target,
and there is an instruction there or the end of the code. -/
structure CompiledUnit.Decodes (u : CompiledUnit) (items : List Item) (ws : List Written) :
    Prop where
  ops : ws.map Written.op = items.filterMap Item.op?
  code : u.instructions? = some
    ((standing 0 ws).map fun (offset, x) => ⟨offset, x.op.kind, x.operand⟩)
  fits : ∀ x ∈ ws, x.Fits u.strings u.numbers fun target n =>
    (∀ m, (target, m) ∈ places 0 items ↔ m = n) ∧ (n = u.code.size ∨ ∃ y, (n, y) ∈ standing 0 ws)

private theorem Assembler.Lists.decodes (h : a.Lists f.items ws)
    (hcoded : f.All fun l _ => l.Coded limits slots) (hregexps : limits.regexps ≤ 2 ^ 16)
    (hnodup : f.ids.Nodup) (body : Body) (nested : List CompiledUnit) (config : Config)
    (fromEvalCode : Bool) : (a.finish body nested config fromEvalCode).Decodes f.items ws := by
  refine ⟨h.ops, ?_, fun x hx => (h.fits x hx).imp fun target n hn => ⟨?_, ?_⟩⟩
  · refine (h.decode_eq hcoded).trans (congrArg some (List.map_congr_left fun (offset, x) hx => ?_))
    exact (h.small hcoded (mem_of_standing hx) fun _ => hregexps).read_eq offset
  · exact fun m => ⟨fun hm => Forest.place_unique hnodup hm hn.1, fun hm => hm ▸ hn.1⟩
  · have hboundary := boundary_of_place h.ops hn.1
    rw [Nat.zero_add, ← h.size_eq] at hboundary
    exact hboundary

/-- The code of a lowered body lists its statements. -/
theorem Layout.Done.exists_lists (hs : L.Sound s) (hd : L.Done config s j first)
    (hout : s.program.emit (s.program.body j) = .ok (.ok out)) :
    ∃ ws, out.Lists (s.program.statements j).items ws := by
  rcases hd.emit_eq hs with ⟨out', ws, hout', hlists⟩ | ⟨error, herror, -⟩
  · cases hout.symm.trans hout'
    exact ⟨ws, hlists⟩
  · cases hout.symm.trans herror

/-- The code of a lowered body is read as the listing of its statements. -/
theorem Layout.Done.decodes (hs : L.Sound s) (hd : L.Done config s j first)
    (hregexps : (s.program.body j).regexps.length ≤ 2 ^ 16)
    (hout : s.program.emit (s.program.body j) = .ok (.ok out)) (nested : List CompiledUnit)
    (fromEvalCode : Bool) : ∃ ws, (out.finish (s.program.body j) nested config fromEvalCode).Decodes
      (s.program.statements j).items ws := by
  obtain ⟨hcoded, -⟩ := hd.coded hs
  have hlimit : (L.program.limits j).regexps ≤ 2 ^ 16 := by
    rw [Body.congr_frozen Body.regexps (hs.body_eq j) fun _ => rfl] at hregexps
    exact hregexps
  obtain ⟨ws, hlists⟩ := hd.exists_lists hs hout
  exact ⟨ws, hlists.decodes hcoded hlimit (hd.statements_nodup hs) ..⟩

/-- The code of each body of a lowered document is read as the listing of the body. -/
theorem lowered_code_decodes {script : Document.Script} {fallback : Option String} {p : Program}
    (hops : script.usesOperators) (hbuild : Document.build script fallback = .ok (.ok p))
    (config : Config) :
    ∃ p' diagnostics, p.lower config = .ok (p', diagnostics) ∧
      ∀ j : BodyId, j.index < p.bodies.size → (p'.body j).regexps.length ≤ 2 ^ 16 →
        ∀ out, p'.emit (p'.body j) = .ok (.ok out) → ∀ nested fromEvalCode, ∃ ws,
          (out.finish (p'.body j) nested config fromEvalCode).Decodes
          (p'.statements j).items ws := by
  obtain ⟨L, rfl⟩ := (Document.build_framed hops hbuild).1.exists_layout
  obtain ⟨s, hlower, hs, hdone, -⟩ := L.lower_eq config
  exact ⟨s.program, s.diagnostics, hlower, fun j hj hregexps out hout nested fromEvalCode =>
    (hdone j hj).decodes hs hregexps hout nested fromEvalCode⟩

/-- A loop that is left at once: a condition, two jumps that leave it and one that goes back. -/
theorem lowered_code_decodes_of_loop :
    let script : Document.Script := ⟨none, [.whileLoop .null (.breakTo none 2) 1], 3⟩
    ∃ p p' diagnostics out ws, script.usesOperators = true ∧
      Document.build script none = .ok (.ok p) ∧ p.lower {} = .ok (p', diagnostics) ∧
      p'.emit (p'.body .script) = .ok (.ok out) ∧ out.code.size = 16 ∧
      (out.finish (p'.body .script) [] {} false).Decodes (p'.statements .script).items ws := by
  intro script
  have hops : script.usesOperators = true := by decide
  have hmade : Document.buildsTo script none (fun p => (p.lower {}).toOption.any fun r =>
      decide ((r.1.body .script).regexps.length ≤ 2 ^ 16) &&
      (r.1.emit (r.1.body .script)).toOption.any fun result => result.toOption.any fun out =>
        out.code.size = 16) = true := by
    decide +kernel
  obtain ⟨p, hbuild, htest⟩ := Document.exists_buildsTo hmade
  obtain ⟨p', diagnostics, hlower, hall⟩ := lowered_code_decodes hops hbuild {}
  rw [hlower] at htest
  obtain ⟨hregexps, hcode⟩ := Bool.and_eq_true_iff.mp htest
  rcases hout : p'.emit (p'.body .script) with _ | _ | out <;> rw [hout] at hcode
  · cases hcode
  · cases hcode
  · obtain ⟨ws, hws⟩ := hall .script (Document.build_framed hops hbuild).2
      (of_decide_eq_true hregexps) out hout [] false
    exact ⟨p, p', diagnostics, out, ws, hops, hbuild, hlower, hout, of_decide_eq_true hcode, hws⟩

end ScriptEngine
