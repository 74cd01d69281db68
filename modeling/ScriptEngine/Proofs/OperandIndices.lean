import ScriptEngine.Proofs.EmittedCode
import ScriptEngine.Proofs.WithBalance

/-!
# Operands and tables

An operand that stands for a string, a number, a variable or a regular expression has two bytes.
Read back, it is the index of the entry; there is no code if the index of a string, of a number or
of a variable has no room. The index of a regular expression is cut off instead.
-/

namespace ScriptEngine

/-- What the operands of a body stand for, in the order of the code. -/
def Program.references (p : Program) (j : BodyId) : List Reference :=
  (p.statements j).written.filterMap p.tree.reference?

/-- Some of the indices have no room in two bytes: there are too many strings or numbers, or a
variable has no slot that fits. -/
def Overflow (references : List Reference) : Prop :=
  (∃ strings : List String, strings.Nodup ∧ 2 ^ 16 < strings.length ∧
    ∀ s ∈ strings, .string s ∈ references) ∨
  (∃ numbers : List Number, numbers.Nodup ∧ 2 ^ 16 < numbers.length ∧
    ∀ x ∈ numbers, .number x ∈ references) ∨
  ∃ i : Int, .slot i ∈ references ∧ ¬ (0 ≤ i ∧ i < 2 ^ 16)

/-- There are no more different entries than indices. -/
theorem length_le_of_indices {α : Type} {as : List α} {table : Array α} {n : Nat}
    (hnodup : as.Nodup) (h : ∀ a ∈ as, ∃ i, table[i]? = some a ∧ i < n) : as.length ≤ n := by
  have hsub : as ⊆ table.toList.take n := by
    intro a ha
    obtain ⟨i, hi, hlt⟩ := h a ha
    refine List.mem_of_getElem? (i := i) ?_
    rw [List.getElem?_take_of_lt hlt, Array.getElem?_toList, hi]
  exact Nat.le_trans (hnodup.subperm hsub).length_le (List.length_take_le ..)

/-- Where there is code, the indices of strings, numbers and variables have room. -/
theorem Program.not_overflow_of_emit {p : Program} {j : BodyId} {out : Assembler}
    (hout : p.emit (p.body j) = .ok (.ok out)) : ¬ Overflow (p.references j) := by
  obtain ⟨⟨xs, hxs, hids⟩, -⟩ := exists_of_emit hout
  have hindex {r : Reference} (hr : r ∈ p.references j) (hreg : r.isRegExp = false) :
      ∃ i, r.IsAt out.strings.items out.numbers.items (p.body j).regexps i ∧ i < 2 ^ 16 := by
    obtain ⟨id, hid, hr⟩ := List.mem_filterMap.mp hr
    rw [← hids] at hid
    obtain ⟨x, hx, rfl⟩ := List.mem_map.mp hid
    obtain ⟨i, hat, -, hlt⟩ := (hxs.refers x hx).index r hr
    exact ⟨i, hat, hlt hreg⟩
  rintro (⟨strings, hnodup, hlength, hmem⟩ | ⟨numbers, hnodup, hlength, hmem⟩ | ⟨i, hmem, hnot⟩)
  · have hle := length_le_of_indices hnodup fun s hs => hindex (hmem s hs) rfl
    omega
  · have hle := length_le_of_indices hnodup fun x hx => hindex (hmem x hx) rfl
    omega
  · obtain ⟨k, hk, hlt⟩ := hindex hmem rfl
    have hslot : i = k := hk
    omega

/-- The code of a unit is that of the nodes of its body. Operands that stand for entries of the
tables have two bytes; read back, they are the indices of these entries, which have room, apart from
those of regular expressions, which are cut off. A body with a string, a number or a variable whose
index has no room has no code. -/
theorem operands_are_indices (p : Program) (j : BodyId) :
    (∀ u config fromEvalCode, CompiledUnit.Of u p config fromEvalCode j →
      ∃ xs : List Encoded, u.code.toList = xs.flatMap (Encoded.bytes p.tree) ∧
        xs.map Encoded.id = (p.statements j).written ∧
        ∀ x ∈ xs, x.operand.length = p.tree.operandSize x.id ∧
          ∀ r, p.tree.reference? x.id = some r → x.operand.length = 2 ∧
            ∃ i, r.IsAt u.strings u.numbers u.regexps i ∧
              (r.isRegExp = false → i < 2 ^ 16 ∧ unsignedValue x.operand = i) ∧
              (r.isRegExp = true → unsignedValue x.operand = i % 2 ^ 16)) ∧
    ∀ r, p.emit (p.body j) = .ok r → Overflow (p.references j) → ∃ error, r = .error error := by
  refine ⟨fun u config fromEvalCode hof => ?_, fun r hr hoverflow => ?_⟩
  · obtain ⟨out, nested, hout, rfl⟩ := hof
    obtain ⟨⟨xs, hxs, hids⟩, -⟩ := Program.exists_of_emit hout
    refine ⟨xs, hxs.code, hids, fun x hx => ⟨(hxs.refers x hx).length_eq, fun r hr => ?_⟩⟩
    obtain ⟨i, hat, hbytes, hlt⟩ := (hxs.refers x hx).index r hr
    refine ⟨by simp [hbytes], i, hat, fun hreg => ⟨hlt hreg, ?_⟩, fun _ => ?_⟩
    · rw [hbytes, unsignedValue_littleEndian (hlt hreg)]
    · rw [hbytes, unsignedValue_littleEndian_mod, show 256 ^ 2 = 2 ^ 16 by simp]
  · cases r with
    | error error => exact ⟨error, rfl⟩
    | ok out => exact absurd hoverflow (Program.not_overflow_of_emit hr)

/-- A function that returns its second parameter. -/
theorem operands_are_indices_of_parameter :
    let script : Document.Script :=
      ⟨none, [.function (.mk "f" ["x", "y"] [.ret (some (.name "y")) 2] 1 3 none)], 3⟩
    ∃ p unit u p' j, Document.build script none = .ok (.ok p) ∧
      p.compile {} false = .ok (.ok unit) ∧ unit.descend? [0] = some u ∧
      CompiledUnit.Of u p' {} false j ∧
      ∃ xs : List Encoded, u.code.toList = xs.flatMap (Encoded.bytes p'.tree) ∧
        ∀ x ∈ xs, ∀ i : Int, p'.tree.reference? x.id = some (.slot i) →
          (unsignedValue x.operand : Int) = i := by
  intro script
  have hmade : Document.compilesTo script none {} [0] fun _ => true := by decide +kernel
  obtain ⟨p, unit, u, hbuild, hcompile, hu, -⟩ := Document.exists_unit hmade
  obtain ⟨p', -, j, -, -, hof⟩ := Program.exists_of_descend? hcompile hu
  obtain ⟨xs, hcode, -, hxs⟩ := (operands_are_indices p' j).1 u {} false hof
  refine ⟨p, unit, u, p', j, hbuild, hcompile, hu, hof, xs, hcode, fun x hx i hi => ?_⟩
  obtain ⟨-, k, hk, hread, -⟩ := (hxs x hx).2 (.slot i) hi
  have hslot : i = k := hk
  rw [(hread rfl).2, hslot]

/-! ## Regular expressions -/

/-- A script that is one regular expression, with the first index that has no room. -/
def lastRegExp (table : Array RegExpLiteral) : Program where
  tree := ⟨#[{ Node.ofKind .script with first := some ⟨1⟩, last := some ⟨1⟩ },
    { Node.ofKind .regExp with attrs := ⟨[(.regExpIndex, .int (2 ^ 16))]⟩ }]⟩
  bodies :=
    #[{ id := .script, functionType := none, name := "", root := ⟨0⟩, regexpTable := table }]

private theorem emit_lastRegExp {table : Array RegExpLiteral} (h : 2 ^ 16 < table.size) :
    (lastRegExp table).emit ((lastRegExp table).body .script) =
      .ok (.ok { code := #[UInt8.ofNat Token.regExp.code, 0, 0], maxStack := 1 }) := by
  let t := (lastRegExp table).tree
  let body := (lastRegExp table).body .script
  have hkind : (t.label ⟨1⟩).kind = .regExp := rfl
  have hoperand : Emitter.emitOperand t body ⟨1⟩ = Emitter.modifyOut (·.emitShort (2 ^ 16)) := by
    rw [Emitter.emitOperand_eq]
    exact if_pos ⟨(by decide : (0 : Int) ≤ 2 ^ 16), Int.ofNat_lt.mpr h⟩
  have hnode : Emitter.emitNode t body 3 0 ⟨1⟩ = (do
      Emitter.noteBefore t ⟨1⟩
      ([] : List NodeId).forM (Emitter.emitNode t body 2 1)
      Emitter.noteBehind t 0 ⟨1⟩
      Emitter.emitOpcode .regExp
      Emitter.modifyOut (·.emitShort (2 ^ 16))) := by
    rw [Emitter.emitNode_eq rfl (by rw [hkind]; decide) (by rw [hkind]; decide), hoperand, hkind]
    rfl
  have hbody : Emitter.emitBody (lastRegExp table) body = (do
      [NodeId.mk 1].forM (Emitter.emitNode t body 3 0)
      Emitter.modifyOut (·.noteLocals 0)
      (← get).fixups.reverse.forM fun fixup => Emitter.patchJump fixup.1 fixup.2) := rfl
  rw [Program.emit, hbody]
  simp only [List.forM_eq_forM, List.forM_cons, hnode]
  rfl

/-- The index of a regular expression of a lowered script that is not read back. -/
theorem regExp_operand_cut_off : ∃ (p : Program) (diagnostics : Diagnostics) (out : Assembler),
    p.lower {} = .ok (p, diagnostics) ∧
    p.emit (p.body .script) = .ok (.ok out) ∧ (p.statements .script).written = [⟨1⟩] ∧
    p.tree.reference? ⟨1⟩ = some (.regExp (2 ^ 16)) ∧ 2 ^ 16 < (p.body .script).regexps.length ∧
    out.code.toList = Encoded.bytes p.tree ⟨⟨1⟩, [0, 0]⟩ ∧ unsignedValue [0, 0] = 0 := by
  obtain ⟨table, hsize⟩ : ∃ table : Array RegExpLiteral, 2 ^ 16 < table.size :=
    ⟨Array.replicate (2 ^ 16 + 1) ⟨"", ""⟩, by rw [Array.size_replicate]; decide⟩
  exact ⟨lastRegExp table, _, _, rfl, emit_lastRegExp hsize, rfl, rfl, hsize, rfl, rfl⟩

end ScriptEngine
