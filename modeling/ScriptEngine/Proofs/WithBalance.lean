import ScriptEngine.Proofs.Compilation

/-!
# With scopes along the code

Each offset of compiled code has a depth, the number of with scopes that are entered there. It
starts with none, it fits along all ways through the code apart from exceptions, and a finally block
that is run as a subroutine comes back with the depth that it began with.
-/

namespace ScriptEngine

variable {w w' offset pc : Nat} {id : NodeId} {l : Node} {config : Config} {depths : Depths}

/-! ## Depths along listings -/

/-- The depth fits along a listing, from one depth to another. -/
def ItemsFlow (depths : Depths) : List Item → Nat → Nat → Prop
  | [], w, w' => w = w'
  | .target id :: rest, w, w' => depths.target id w ∧ ItemsFlow depths rest w w'
  | .op o :: rest, w, w' => ∃ v, o.node.Steps depths o.id w v ∧ ItemsFlow depths rest v w'

private theorem ItemsFlow.append {xs ys : List Item} {v : Nat} (hxs : ItemsFlow depths xs w v)
    (hys : ItemsFlow depths ys v w') : ItemsFlow depths (xs ++ ys) w w' := by
  induction xs generalizing w with
  | nil =>
    obtain rfl : w = v := hxs
    exact hys
  | cons item xs ih =>
    cases item with
    | op o =>
      obtain ⟨u, hstep, hrest⟩ := hxs
      exact ⟨u, hstep, ih hrest⟩
    | target id => exact ⟨hxs.1, ih hxs.2⟩

/-- Nodes that leave no byte keep the depth. -/
theorem Node.Steps.eq_of_not_isBytecode (h : l.Steps depths id w w') (htarget : l.kind ≠ .target)
    (hbyte : l.kind.isBytecode = false) : w = w' := by
  have hne {k : Token} (hk : k.isBytecode = true) : l.kind ≠ k := by
    rintro rfl
    rw [hk] at hbyte
    cases hbyte
  unfold Node.Steps at h
  split at h
  · next hk => exact absurd hk htarget
  iterate 10
    · next hk => exact absurd hk (hne rfl)
  · exact h

/-- Where the depth fits along the code of a forest, it fits along its listing. -/
theorem Forest.Flows.items {f : Forest} (h : f.Flows depths w w') :
    ItemsFlow depths f.items w w' := by
  induction f generalizing w w' with
  | nil => exact h
  | cons id l kids rest ihk ihr =>
    obtain ⟨hleaf, u, v, hkids, hstep, hrest⟩ := h
    rw [Forest.items_cons]
    refine ItemsFlow.append ?_ (ihr hrest)
    by_cases htarget : l.kind = .target
    · obtain rfl := hleaf (.inl htarget)
      obtain rfl : w = u := hkids
      simpa [Forest.items, htarget, ItemsFlow, Node.Steps] using hstep
    by_cases hfun : l.kind = .function
    · obtain rfl := hleaf (.inr hfun)
      obtain rfl : w = u := hkids
      simpa [Forest.items, hfun, ItemsFlow, Node.Steps] using hstep
    rw [Forest.items_tree htarget hfun]
    refine (ihk hkids).append ?_
    split
    · exact ⟨v, hstep, rfl⟩
    · next hbyte => exact hstep.eq_of_not_isBytecode htarget (by simpa using hbyte)

/-- Where the instructions of a listing stand, from an offset on. -/
def opPlaces : Nat → List Item → List (Nat × Op)
  | _, [] => []
  | offset, .target _ :: rest => opPlaces offset rest
  | offset, .op o :: rest => (offset, o) :: opPlaces (offset + o.size) rest

/-- Places lie within the code. -/
theorem bounds_of_mem_places {items : List Item} {target : NodeId}
    (h : (target, pc) ∈ places offset items) : offset ≤ pc ∧ pc ≤ offset + codeSize items := by
  induction items generalizing offset with
  | nil => cases h
  | cons item items ih =>
    cases item with
    | op o =>
      obtain ⟨hle, hle'⟩ := ih h
      refine ⟨Nat.le_trans (Nat.le_add_right ..) hle, ?_⟩
      simpa [codeSize, Nat.add_assoc] using hle'
    | target id =>
      have hsize : codeSize (.target id :: items) = codeSize items := by simp [codeSize]
      rcases List.mem_cons.mp h with heq | h
      · obtain ⟨-, rfl⟩ := Prod.mk.inj heq
        exact ⟨Nat.le_refl _, Nat.le_add_right ..⟩
      · rw [hsize]
        exact ih h

private theorem le_of_mem_opPlaces {items : List Item} {o : Op}
    (h : (pc, o) ∈ opPlaces offset items) : offset ≤ pc := by
  induction items generalizing offset with
  | nil => cases h
  | cons item items ih =>
    cases item with
    | op o' =>
      rcases List.mem_cons.mp h with heq | h
      · exact (Prod.mk.inj heq).1 ▸ Nat.le_refl _
      · exact Nat.le_trans (Nat.le_add_right ..) (ih h)
    | target id => exact ih h

/-- Depths that fit along a listing are a function of the offset: targets do not change them, and
each instruction has at least one byte. -/
theorem ItemsFlow.exists_depth {items : List Item} (h : ItemsFlow depths items w w')
    (offset : Nat) :
    ∃ depth : Nat → Nat, depth offset = w ∧
      (∀ target pc, (target, pc) ∈ places offset items → depths.target target (depth pc)) ∧
      ∀ pc o, (pc, o) ∈ opPlaces offset items →
        o.node.Steps depths o.id (depth pc) (depth (pc + o.size)) := by
  induction items generalizing w offset with
  | nil => exact ⟨fun _ => w, rfl, by simp [places], by simp [opPlaces]⟩
  | cons item items ih =>
    cases item with
    | target id =>
      obtain ⟨depth, hfirst, hplaces, hops⟩ := ih h.2 offset
      refine ⟨depth, hfirst, fun target pc hmem => ?_, hops⟩
      rcases List.mem_cons.mp hmem with heq | hmem
      · obtain ⟨rfl, rfl⟩ := Prod.mk.inj heq
        rw [hfirst]
        exact h.1
      · exact hplaces target pc hmem
    | op o =>
      obtain ⟨v, hstep, hrest⟩ := h
      obtain ⟨depth, hfirst, hplaces, hops⟩ := ih hrest (offset + o.size)
      have hsize : 0 < o.size := by simp [Op.size]
      -- Everything that comes later stands behind the operand of this instruction.
      let depth' : Nat → Nat := fun pc => if pc < offset + o.size then w else depth pc
      have hbehind {pc : Nat} (hle : offset + o.size ≤ pc) : depth' pc = depth pc :=
        if_neg (Nat.not_lt.mpr hle)
      have hhere : depth' offset = w := if_pos (Nat.lt_add_of_pos_right hsize)
      refine ⟨depth', hhere, fun target pc hmem => ?_, fun pc o' hmem => ?_⟩
      · have hbounds : offset + o.size ≤ pc ∧ _ := bounds_of_mem_places hmem
        rw [hbehind hbounds.1]
        exact hplaces target pc hmem
      · rcases List.mem_cons.mp hmem with heq | hmem
        · obtain ⟨rfl, rfl⟩ := Prod.mk.inj heq
          rw [hhere, hbehind (Nat.le_refl _), hfirst]
          exact hstep
        · have hle := le_of_mem_opPlaces hmem
          rw [hbehind hle, hbehind (Nat.le_trans hle (Nat.le_add_right ..))]
          exact hops pc o' hmem

private theorem mem_opPlaces_of_standing {items : List Item} {ws : List Written}
    {x : Written} (hops : ws.map Written.op = items.filterMap Item.op?)
    (h : (pc, x) ∈ standing offset ws) : (pc, x.op) ∈ opPlaces offset items := by
  induction items generalizing offset ws with
  | nil =>
    obtain rfl : ws = [] := by simpa using hops
    cases h
  | cons item items ih =>
    cases item with
    | target id => exact ih (by simpa using hops) h
    | op o =>
      obtain ⟨y, ws, rfl⟩ : ∃ y rest, ws = y :: rest :=
        List.exists_cons_of_ne_nil (by rintro rfl; simp at hops)
      obtain ⟨rfl, hrest⟩ : y.op = o ∧ ws.map Written.op = items.filterMap Item.op? := by
        simpa using hops
      rcases List.mem_cons.mp h with heq | h
      · obtain ⟨rfl, rfl⟩ := Prod.mk.inj heq
        simp [opPlaces]
      · exact List.mem_cons_of_mem _ (ih hrest h)

/-! ## Depths along code -/

/-- Whether the next instruction may follow. -/
def Token.fallsThrough : Token → Bool
  | .goto | .ret | .returnPopv | .throw | .retsub => false
  | _ => true

/-- The depth behind an instruction. -/
def Instruction.depthBehind (i : Instruction) (w : Nat) : Nat :=
  match i.op with
  | .enterWith => w + 1
  | .leaveWith => w - 1
  | _ => w

/-- The depth fits at an instruction: no scope is left where none is entered, what follows has the
depth behind the instruction, and a jump leads to a place of its own depth. -/
structure Instruction.Balances (depth : Nat → Nat) (i : Instruction) : Prop where
  leave : i.op = .leaveWith → 0 < depth i.offset
  next : i.op.fallsThrough → depth i.next = i.depthBehind (depth i.offset)
  jump : i.op.operand = .jump → ∃ pc : Nat, i.operand = pc ∧ depth pc = depth i.offset

/-- The code of a unit has depths that fit, where the unit is that of a body with given statements.
The end of a finally block has the depth of its beginning. -/
def CompiledUnit.Balances (u : CompiledUnit) (f : Forest) : Prop :=
  ∃ code, u.instructions? = some code ∧ ∃ depth : Nat → Nat, depth 0 = 0 ∧
    (∀ i ∈ code, i.Balances depth) ∧
    ∀ i ∈ code, i.op = .retsub → ∃ o entry pc, (i.offset, o) ∈ opPlaces 0 f.items ∧
      f.Subroutine entry o.id ∧ (entry, pc) ∈ places 0 f.items ∧ depth pc = depth i.offset

/-- The depth behind an instruction that may be followed by the next one. -/
theorem Node.Steps.eq_depthBehind (h : l.Steps depths id w w') {i : Instruction}
    (hop : i.op = l.kind) (hfalls : l.kind.fallsThrough) : w' = i.depthBehind w := by
  unfold Node.Steps at h
  unfold Instruction.depthBehind
  rw [hop]
  split at h <;> simp_all [Token.fallsThrough]

/-- The code of a lowered body has depths that fit. -/
theorem Layout.Done.balances {L : Layout} {s : LoweringState} {j : BodyId}
    {first : Nat} (hs : L.Sound s) (hd : L.Done config s j first) {out : Assembler}
    (hout : s.program.emit (s.program.body j) = .ok (.ok out)) (nested : List CompiledUnit)
    (fromEvalCode : Bool) :
    (out.finish (s.program.body j) nested config fromEvalCode).Balances
    (s.program.statements j) := by
  obtain ⟨hcoded, hflow⟩ := hd.coded hs
  have hnodup := hd.statements_nodup hs
  obtain ⟨ws, hlists⟩ := hd.exists_lists hs hout
  obtain ⟨depth, hentry, hplaces, hsteps⟩ := hflow.items.exists_depth 0
  -- A target has one depth, so that of its place is the one that a jump to it has.
  have hunique {target : NodeId} {pc w : Nat} (hplace : (target, pc) ∈ places 0 _)
      (hmark : (s.program.statements j).depths.target target w) : depth pc = w :=
    Forest.Marks.unique hnodup (hplaces target pc hplace) hmark
  refine ⟨_, hlists.decode_eq hcoded, depth, hentry, fun i hi => ?_, fun i hi hret => ?_⟩
  all_goals
    obtain ⟨⟨pc, x⟩, hx, rfl⟩ := List.mem_map.mp hi
    have hplace := mem_opPlaces_of_standing hlists.ops hx
    have hstep := hsteps pc x.op hplace
  · refine ⟨fun hleave => ?_, fun hfalls => ?_, fun hjump => ?_⟩
    · have hkind : x.op.node.kind = .leaveWith := hleave
      simp only [Node.Steps, hkind] at hstep
      exact hstep ▸ Nat.succ_pos _
    · have hnext : (x.read pc).next = pc + x.op.size := Nat.add_assoc ..
      rw [hnext]
      exact hstep.eq_depthBehind rfl hfalls
    · have hkind : x.op.kind.operand = .jump := hjump
      obtain ⟨target, htarget, hmark⟩ := hstep.exists_target (Token.isBranch_iff.mpr hkind)
      obtain ⟨hread, target', htarget', hfound⟩ :=
        hlists.read_jump hcoded (mem_of_standing hx) hkind pc
      obtain rfl : target = target' := Option.some.inj (htarget.symm.trans htarget')
      exact ⟨x.operand, hread, hunique hfound hmark⟩
  · have hkind : x.op.node.kind = .retsub := hret
    simp only [Node.Steps, hkind] at hstep
    obtain ⟨entry, hsub, hmark⟩ := hstep
    obtain ⟨place, hfound⟩ := exists_place (hmark.mem_items (hflow.encodes hcoded)) 0
    exact ⟨x.op, entry, place, hplace, hsub, hfound, hunique hfound hmark⟩

/-- All units of a compiled document have depths that fit along their code. -/
theorem compiled_code_balances {script : Document.Script} {fallback : Option String} {p : Program}
    (hops : script.usesOperators) (hbuild : Document.build script fallback = .ok (.ok p))
    {config : Config} {fromEvalCode : Bool} {unit : CompiledUnit}
    (hcompile : p.compile config fromEvalCode = .ok (.ok unit)) {path : List Nat} {u : CompiledUnit}
    (hpath : unit.descend? path = some u) :
    ∃ p' diagnostics, p.lower config = .ok (p', diagnostics) ∧
      ∃ j : BodyId, j.index < p'.bodies.size ∧ u.Of p' config fromEvalCode j ∧
        u.Balances (p'.statements j) := by
  obtain ⟨hframed, hsize⟩ := Document.build_framed hops hbuild
  obtain ⟨L, rfl⟩ := hframed.exists_layout
  obtain ⟨s, hlower, hs, hdone, -⟩ := L.lower_eq config
  obtain ⟨j, hj, hof, -⟩ := L.exists_of_descend? hframed hsize hlower hs hcompile hpath
  obtain ⟨out, nested, hout, hfinish⟩ := id hof
  refine ⟨s.program, s.diagnostics, hlower, j, by rw [hs.bodies_size]; exact hj, hof, ?_⟩
  rw [hfinish]
  exact (hdone j hj).balances hs hout nested fromEvalCode

/-- The document has a unit that passes a test. -/
def Document.compilesTo (script : Script) (fallback : Option String) (config : Config)
    (path : List Nat) (test : CompiledUnit → Bool) : Bool :=
  buildsTo script fallback fun p =>
    match p.compile config false with
    | .ok (.ok unit) => (unit.descend? path).any test
    | _ => false

/-- A document that compiles to something has such a unit. -/
theorem Document.exists_unit {script : Script} {fallback : Option String} {path : List Nat}
    {test : CompiledUnit → Bool} (h : compilesTo script fallback config path test) :
    ∃ p unit u, build script fallback = .ok (.ok p) ∧ p.compile config false = .ok (.ok unit) ∧
      unit.descend? path = some u ∧ test u := by
  obtain ⟨p, hbuild, h⟩ := exists_buildsTo h
  split at h
  · next unit hcompile =>
    obtain ⟨u, hu, htest⟩ := (Option.any_eq_true ..).mp h
    exact ⟨p, unit, u, hbuild, hcompile, hu, htest⟩
  · cases h

/-- A function that returns out of a with statement and a try with a finally block. -/
theorem compiled_code_balances_of_function :
    let script : Document.Script :=
    ⟨none, [.function (.mk "f" [] [.whileLoop .null (.withScope .null
      (.tryCatch [.ret none 3] [] (some [.expr .null 4]) 3) 2) 2] 1 5 none)], 5⟩
    ∃ p unit u, script.usesOperators = true ∧ Document.build script none = .ok (.ok p) ∧
      p.compile {} false = .ok (.ok unit) ∧ unit.descend? [0] = some u ∧ u.code.size = 35 ∧
      ∃ f, u.Balances f := by
  intro script
  have hops : script.usesOperators = true := by decide
  have hmade : Document.compilesTo script none {} [0] (·.code.size = 35) := by decide +kernel
  obtain ⟨p, unit, u, hbuild, hcompile, hu, hsize⟩ := Document.exists_unit hmade
  obtain ⟨p', -, -, j, -, -, hbalances⟩ := compiled_code_balances hops hbuild hcompile hu
  exact ⟨p, unit, u, hops, hbuild, hcompile, hu, of_decide_eq_true hsize, p'.statements j,
    hbalances⟩

end ScriptEngine
