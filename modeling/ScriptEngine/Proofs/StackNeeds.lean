import ScriptEngine.Proofs.EmittedCode
import ScriptEngine.Proofs.WithBalance

/-!
# Stack depth

Operands are evaluated from left to right, and each leaves a value on the stack until the node above
them uses it. `Node.need` is how many values this comes to. The depth that is noted in a unit is how
deep the nodes are nested, `Forest.height`, so that two operands of each node are accounted for;
`Node.excess` counts the values of further operands.
-/

namespace ScriptEngine

variable {f kids : Forest} {l : Node}

/-! ## Needs -/

namespace Forest

/-- How many values are on the stack at most, while operands are evaluated on top of `i` others. -/
def needFrom : Forest → Nat → Nat
  | .nil, _ => 0
  | .cons _ l kids rest, i =>
    max (i + if l.Skipped then 1 else max 1 (kids.needFrom 0)) (rest.needFrom (i + 1))

/-- How many of them are values of third and later operands. -/
def excessFrom : Forest → Nat → Nat
  | .nil, _ => 0
  | .cons _ l kids rest, i =>
    max (i - 1 + if l.Skipped then 0 else kids.excessFrom 0) (rest.excessFrom (i + 1))

/-- No node has more than two operands. -/
def Narrow : Forest → Prop
  | .nil => True
  | .cons _ l kids rest => (¬ l.Skipped → kids.roots.length ≤ 2 ∧ kids.Narrow) ∧ rest.Narrow

/-- The trees of a forest, without the ids of their roots. -/
def trees : Forest → List (Node × Forest)
  | .nil => []
  | .cons _ l kids rest => (l, kids) :: rest.trees

/-- The nodes below those that are written, each with what is below it. -/
def operands : Forest → List (Node × Forest)
  | .nil => []
  | .cons _ l kids rest => (if l.Skipped then [] else kids.trees ++ kids.operands) ++ rest.operands

end Forest

namespace Node

/-- How many values are on the stack at most, while a node is evaluated. -/
def need (l : Node) (kids : Forest) : Nat := if l.Skipped then 1 else max 1 (kids.needFrom 0)

/-- How many of them are values of third and later operands. -/
def excess (l : Node) (kids : Forest) : Nat := if l.Skipped then 0 else kids.excessFrom 0

/-- Neither the node nor one below it has more than two operands. -/
def Narrow (l : Node) (kids : Forest) : Prop := ¬ l.Skipped → kids.roots.length ≤ 2 ∧ kids.Narrow

end Node

namespace Forest

/-- A node and an operand before it are accounted for by the two levels above a forest. -/
theorem needFrom_le (f : Forest) (i : Nat) : f.needFrom i ≤ f.height + 2 + f.excessFrom i := by
  induction f generalizing i with
  | nil => exact Nat.zero_le _
  | cons id l kids rest ihk ihr =>
    have hkids := ihk 0
    have hrest := ihr (i + 1)
    simp only [needFrom, height, excessFrom]
    split <;> omega

private theorem excessFrom_eq_zero {i : Nat} (h : f.Narrow)
    (hi : i + f.roots.length ≤ 2) : f.excessFrom i = 0 := by
  induction f generalizing i with
  | nil => rfl
  | cons id l kids rest ihk ihr =>
    rw [roots_cons, List.length_cons] at hi
    have hrest := ihr h.2 (i := i + 1) (by omega)
    simp only [excessFrom, hrest]
    split
    · omega
    · next hskipped =>
      rw [ihk (h.1 hskipped).2 (i := 0) (by have := (h.1 hskipped).1; omega)]
      omega

private theorem height_le_of_mem_trees
    (h : (l, kids) ∈ f.trees) : (if l.Skipped then 0 else kids.height + 1) ≤ f.height := by
  induction f with
  | nil => cases h
  | cons id l' kids' rest _ ih =>
    simp only [height]
    rcases List.mem_cons.mp h with heq | h
    · obtain ⟨rfl, rfl⟩ := Prod.mk.inj heq
      exact Nat.le_max_left ..
    · exact Nat.le_trans (ih h) (Nat.le_max_right ..)

/-- An operand is a level below a node. -/
theorem height_lt_of_mem_operands
    (h : (l, kids) ∈ f.operands) : (if l.Skipped then 0 else kids.height + 1) < f.height := by
  induction f with
  | nil => cases h
  | cons id l' kids' rest ihk ihr =>
    simp only [height]
    rcases List.mem_append.mp h with h | h
    · split at h
      · cases h
      · next hskipped =>
        rw [if_neg hskipped]
        rcases List.mem_append.mp h with h | h
        · have := height_le_of_mem_trees h
          omega
        · have := ihk h
          omega
    · have := ihr h
      omega

end Forest

/-- Needs are bounded by the depth and the excess. A node that is skipped has a value as well, for
which the level above it stands. -/
theorem Node.need_le (l : Node) (kids : Forest) :
    l.need kids ≤ (if l.Skipped then 0 else kids.height + 1) + 1 + l.excess kids := by
  have hkids := kids.needFrom_le 0
  unfold need excess
  split <;> omega

private theorem Node.Narrow.excess_eq_zero (h : l.Narrow kids) : l.excess kids = 0 := by
  unfold Node.excess
  split
  · rfl
  · next hskipped =>
    obtain ⟨hlength, hnarrow⟩ := h hskipped
    exact Forest.excessFrom_eq_zero hnarrow (by omega)

/-! ## Units -/

/-- The depth that is noted in a unit of a compiled program is that of the statements of its body.
The operands below a statement need no more than this depth, apart from the values of third and
later operands of a node; so the depth is enough for them where no node has more than two operands.
A call with at most one argument has room. -/
theorem stack_needs_bounded {p : Program} {config : Config} {fromEvalCode : Bool}
    {unit : CompiledUnit} (hcompile : p.compile config fromEvalCode = .ok (.ok unit))
    {path : List Nat} {u : CompiledUnit} (hpath : unit.descend? path = some u) :
    ∃ p' diagnostics j, p.lower config = .ok (p', diagnostics) ∧ p'.descend? .script path = some j ∧
      u.Of p' config fromEvalCode j ∧ u.maxStack = (p'.statements j).height ∧
      ∀ l kids, (l, kids) ∈ (p'.statements j).operands →
        l.need kids ≤ u.maxStack + l.excess kids ∧
        (l.Narrow kids → l.need kids ≤ u.maxStack) ∧
        (l.kind = .call ∨ l.kind = .new → u.maxCalleeArgs ≤ 1 →
          u.maxCalleeArgs + 1 ≤ u.maxStack) := by
  obtain ⟨p', diagnostics, j, hlower, hbody, hof⟩ := Program.exists_of_descend? hcompile hpath
  obtain ⟨out, nested, hout, rfl⟩ := id hof
  have hstack : out.maxStack = (p'.statements j).height := (Program.exists_of_emit hout).2
  refine ⟨p', diagnostics, j, hlower, hbody, hof, hstack, fun l kids hmem => ?_⟩
  have hlt := Forest.height_lt_of_mem_operands hmem
  rw [← hstack] at hlt
  have hneed : l.need kids ≤ out.maxStack + l.excess kids := by
    have := l.need_le kids
    omega
  refine ⟨hneed, fun hnarrow => ?_, fun hcall hargs => ?_⟩
  · rw [hnarrow.excess_eq_zero] at hneed
    exact hneed
  · have hskipped : ¬ l.Skipped := by
      rcases hcall with hk | hk <;> simp [Node.Skipped, hk]
    rw [if_neg hskipped] at hlt
    have hle : out.maxCalleeArgs ≤ 1 := hargs
    show out.maxCalleeArgs + 1 ≤ out.maxStack
    omega

/-- A function that returns a sum of products. -/
theorem stack_needs_bounded_of_sum :
    let script : Document.Script := ⟨none, [.function (.mk "f" ["x"] [.ret (some (.binary "ADD"
      (.binary "MUL" (.name "x") (.name "x")) (.binary "MUL" (.name "x") (.name "x")))) 2] 1 3
      none)], 3⟩
    ∃ p unit u, Document.build script none = .ok (.ok p) ∧ p.compile {} false = .ok (.ok unit) ∧
      unit.descend? [0] = some u ∧ ∃ p' j, u.Of p' {} false j ∧
        u.maxStack = (p'.statements j).height ∧
        ∀ l kids, (l, kids) ∈ (p'.statements j).operands → l.Narrow kids →
          l.need kids ≤ u.maxStack := by
  intro script
  have hmade : Document.compilesTo script none {} [0] fun _ => true := by decide +kernel
  obtain ⟨p, unit, u, hbuild, hcompile, hu, -⟩ := Document.exists_unit hmade
  obtain ⟨p', -, j, -, -, hof, hstack, hneeds⟩ := stack_needs_bounded hcompile hu
  exact ⟨p, unit, u, hbuild, hcompile, hu, p', j, hof, hstack, fun l kids hmem hnarrow =>
    (hneeds l kids hmem).2.1 hnarrow⟩

/-- A call with four arguments needs five values, but the depth that is noted is three. -/
theorem stack_need_exceeds_depth :
    let script : Document.Script := ⟨none,
      [.expr (.call .receiver [.null, .null, .null, .null]) 1], 1⟩
    ∃ p p' diagnostics unit l kids, Document.build script none = .ok (.ok p) ∧
      p.lower {} = .ok (p', diagnostics) ∧ p.compile {} false = .ok (.ok unit) ∧
      (l, kids) ∈ (p'.statements .script).operands ∧ l.need kids = 5 ∧ unit.maxCalleeArgs = 4 ∧
      unit.maxStack = 3 := by
  intro script
  have hmade : Document.buildsTo script none fun p =>
      ((p.lower {}).toOption.any fun r =>
        (r.1.statements .script).operands.any fun x => x.1.need x.2 = 5) &&
      (p.compile {} false).toOption.any fun result => result.toOption.any fun unit =>
        unit.maxCalleeArgs = 4 ∧ unit.maxStack = 3 := by
    decide +kernel
  obtain ⟨p, hbuild, htest⟩ := Document.exists_buildsTo hmade
  obtain ⟨hlowered, hunit⟩ := Bool.and_eq_true_iff.mp htest
  rcases hcompile : p.compile {} false with _ | _ | unit <;> rw [hcompile] at hunit
  · cases hunit
  · cases hunit
  · obtain ⟨p', diagnostics, hlower, -⟩ := Program.exists_of_compile hcompile
    rw [hlower] at hlowered
    obtain ⟨⟨l, kids⟩, hmem, hneed⟩ := List.any_eq_true.mp hlowered
    obtain ⟨hargs, hstack⟩ := of_decide_eq_true hunit
    exact ⟨p, p', diagnostics, unit, l, kids, hbuild, hlower, hcompile, hmem,
      of_decide_eq_true hneed, hargs, hstack⟩

end ScriptEngine
