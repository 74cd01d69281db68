import ScriptEngine.Proofs.Decoding
import ScriptEngine.Proofs.Outcomes

/-!
# Compiling documents

The units of a lowered program are assembled from the inside out. No function is nested in itself,
and each body has code unless a limit of the format is exceeded, so that compiling comes to an end
without a fault.
-/

namespace ScriptEngine

variable {α β : Type} {p : Program} {config : Config} {fromEvalCode : Bool} {fuel : Nat}
  {j : BodyId} {u unit : CompiledUnit} {path : List Nat}

/-! ## Computations that assemble units -/

/-- The computation ends without a fault. If it gives up, it is with an error that is allowed. -/
def Assembles {α : Type} (m : ExceptT CodeError (Except Fault) α) (refused : CodeError → Prop) :
    Prop :=
  ∃ r : Except CodeError α, m.run = .ok r ∧ ∀ error, r = .error error → refused error

namespace Assembles

variable {m : ExceptT CodeError (Except Fault) α}
  {f : α → ExceptT CodeError (Except Fault) β} {refused : CodeError → Prop}

private theorem pure (a : α) : Assembles (Pure.pure a) refused := ⟨.ok a, rfl, nofun⟩

private theorem bind (h : Assembles m refused) (hf : ∀ a, Assembles (f a) refused) :
    Assembles (m >>= f) refused := by
  obtain ⟨r, hrun, hrefused⟩ := h
  cases r with
  | ok a =>
    obtain ⟨r', hrun', hrefused'⟩ := hf a
    refine ⟨r', ?_, hrefused'⟩
    rw [ExceptT.run_bind, hrun]
    exact hrun'
  | error error =>
    refine ⟨.error error, ?_, fun _ heq => hrefused _ (by cases heq; rfl)⟩
    rw [ExceptT.run_bind, hrun]
    rfl

/-- One computation after the other, for each element of a list. -/
theorem mapM {γ : Type} {g : γ → ExceptT CodeError (Except Fault) α} {xs : List γ}
    (h : ∀ x ∈ xs, Assembles (g x) refused) : Assembles (xs.mapM g) refused := by
  induction xs with
  | nil => exact Assembles.pure []
  | cons x xs ih =>
    rw [List.mapM_cons]
    refine (h x (by simp)).bind fun y => ?_
    exact (ih fun z hz => h z (by simp [hz])).bind fun ys => Assembles.pure (y :: ys)

end Assembles

/-! ## Units -/

/-- The unit is that of a body. -/
def CompiledUnit.Of (u : CompiledUnit) (p : Program) (config : Config) (fromEvalCode : Bool)
    (j : BodyId) : Prop :=
  ∃ out nested, p.emit (p.body j) = .ok (.ok out) ∧
    u = out.finish (p.body j) nested config fromEvalCode

/-- A lowered program is assembled if there are no complaints. -/
theorem Program.compile_of_lower {p' : Program} {diagnostics : Diagnostics}
    (hlower : p.lower config = .ok (p', diagnostics)) (fromEvalCode : Bool) :
    p.compile config fromEvalCode =
      if diagnostics.hasErrors then .ok (.error (.complaints diagnostics))
      else (p'.assemble config fromEvalCode).map (·.mapError .code) := by
  rw [compile, hlower]
  simp only [bind, Except.bind]
  split
  · rfl
  · cases p'.assemble config fromEvalCode <;> rfl

/-! ## Units of nested functions -/

/-- One computation after the other, for each element of a list. -/
theorem forall2_of_mapM_ok {g : α → ExceptT CodeError (Except Fault) β} {xs : List α} {ys : List β}
    (h : xs.mapM g = pure ys) : List.Forall₂ (fun x y => g x = pure y) xs ys := by
  induction xs generalizing ys with
  | nil =>
    rw [List.mapM_nil] at h
    cases Stepwise.pure_inj h
    exact .nil
  | cons x xs ih =>
    rw [List.mapM_cons] at h
    obtain ⟨y, hy, h⟩ := Stepwise.exists_of_bind h
    obtain ⟨ys', hys, h⟩ := Stepwise.exists_of_bind h
    cases Stepwise.pure_inj h
    exact .cons hy (ih hys)

private theorem rel_getElem?_of_forall2 {r : α → β → Prop} {xs : List α} {ys : List β}
    (h : List.Forall₂ r xs ys) (i : Nat) : Option.Rel r xs[i]? ys[i]? := by
  induction h generalizing i with
  | nil => exact .none
  | cons hxy _ ih =>
    cases i with
    | zero => exact .some hxy
    | succ i => simpa using ih i

namespace Program

/-- The body that is reached by going down the tables of nested functions. -/
def descend? (p : Program) (j : BodyId) : List Nat → Option BodyId
  | [] => some j
  | i :: rest => ((p.body j).functions[i]?).bind (p.descend? · rest)

/-- The unit of a body holds the units of the functions that the body lists. -/
theorem exists_of_assembleBody (h : p.assembleBody config fromEvalCode (fuel + 1) j = pure u) :
    u.Of p config fromEvalCode j ∧
      List.Forall₂ (fun k v => p.assembleBody config fromEvalCode fuel k = pure v)
        (p.body j).functions u.nested := by
  rw [assembleBody] at h
  obtain ⟨nested, hnested, h⟩ := Stepwise.exists_of_bind h
  obtain ⟨out, hout, h⟩ := Stepwise.exists_of_bind h
  cases Stepwise.pure_inj h
  exact ⟨⟨out, nested, hout, rfl⟩, forall2_of_mapM_ok hnested⟩

/-- Units are nested in each other as the bodies are. -/
theorem assembleBody_mirrors (h : p.assembleBody config fromEvalCode fuel j = pure u)
    (path : List Nat) : Option.Rel (fun i v => v.Of p config fromEvalCode i) (p.descend? j path)
      (u.descend? path) := by
  induction path generalizing fuel j u with
  | nil =>
    cases fuel with
    | zero => cases h
    | succ fuel => exact .some (exists_of_assembleBody h).1
  | cons i path ih =>
    cases fuel with
    | zero => cases h
    | succ fuel =>
      have hunit := rel_getElem?_of_forall2 (exists_of_assembleBody h).2 i
      rw [descend?, CompiledUnit.descend?]
      generalize (p.body j).functions[i]? = k at hunit ⊢
      generalize u.nested[i]? = v at hunit ⊢
      cases hunit with
      | none => exact .none
      | some hv => exact ih hv

/-- Where a program is compiled, it is lowered first, and units are made of the lowered program. -/
theorem exists_of_compile (h : p.compile config fromEvalCode = .ok (.ok unit)) :
    ∃ p' diagnostics, p.lower config = .ok (p', diagnostics) ∧
      p'.assembleBody config fromEvalCode (p'.bodies.size + 1) .script = pure unit := by
  obtain ⟨⟨p', diagnostics⟩, hlower, h⟩ := Stepwise.exists_of_bind h
  refine ⟨p', diagnostics, hlower, ?_⟩
  dsimp only at h
  split at h
  · cases h
  obtain ⟨r, hr, h⟩ := Stepwise.exists_of_bind h
  cases r with
  | error error => cases h
  | ok u =>
    cases h
    exact hr

/-- The units of a compiled program are those of the bodies that are reached in the same way. -/
theorem exists_of_descend?
    (h : p.compile config fromEvalCode = .ok (.ok unit)) (hpath : unit.descend? path = some u) :
    ∃ p' diagnostics j, p.lower config = .ok (p', diagnostics) ∧ p'.descend? .script path = some j ∧
      u.Of p' config fromEvalCode j := by
  obtain ⟨p', diagnostics, hlower, hassemble⟩ := exists_of_compile h
  have hmirrors := assembleBody_mirrors hassemble path
  rw [hpath] at hmirrors
  cases hbody : p'.descend? .script path with
  | none =>
    rw [hbody] at hmirrors
    cases hmirrors
  | some j =>
    rw [hbody] at hmirrors
    cases hmirrors with
    | some hof => exact ⟨p', diagnostics, j, hlower, hbody, hof⟩

/-- A body that is reached from another one is listed by some body. -/
theorem exists_mem_functions (good : BodyId → Prop) {k : BodyId} {n : Nat}
    (hgood : ∀ i, good i → ∀ k ∈ (p.body i).functions, good k) (hj : good j)
    (h : p.descend? j (n :: path) = some k) : ∃ i, good i ∧ k ∈ (p.body i).functions := by
  induction path generalizing j n with
  | nil =>
    obtain ⟨k', hk', h⟩ := Option.bind_eq_some_iff.mp h
    cases h
    exact ⟨j, hj, List.mem_of_getElem? hk'⟩
  | cons m path ih =>
    obtain ⟨k', hk', h⟩ := Option.bind_eq_some_iff.mp h
    exact ih (hgood j hj k' (List.mem_of_getElem? hk')) h

end Program

namespace Layout

variable {L : Layout} {s : LoweringState}

private theorem Sound.functions_eq (hs : L.Sound s) (j : BodyId) :
    (s.program.body j).functions = (L.program.body j).functions :=
  Body.congr_frozen Body.functions (hs.body_eq j) fun _ => rfl

/-- The units of a compiled program are those of its bodies: the script, or functions that bodies
list. -/
theorem exists_of_descend? (hframed : L.program.Framed []) (hsize : 0 < L.size)
    (hlower : L.program.lower config = .ok (s.program, s.diagnostics)) (hs : L.Sound s)
    (hcompile : L.program.compile config fromEvalCode = .ok (.ok unit))
    (hpath : unit.descend? path = some u) :
    ∃ j : BodyId, j.index < L.size ∧ u.Of s.program config fromEvalCode j ∧
      (j = .script ∨ ∃ i : BodyId, i.index < L.size ∧ j ∈ (L.program.body i).functions) := by
  obtain ⟨p', diagnostics, j, hlower', hj, hof⟩ := Program.exists_of_descend? hcompile hpath
  obtain ⟨rfl, -⟩ : s.program = p' ∧ s.diagnostics = diagnostics := by
    simpa using hlower.symm.trans hlower'
  cases path with
  | nil =>
    cases hj
    exact ⟨_, hsize, hof, .inl rfl⟩
  | cons n path =>
    obtain ⟨i, hi, hmem⟩ := Program.exists_mem_functions (fun i => i.index < L.size)
      (fun i hi k hk => (hframed.nested i hi k (hs.functions_eq i ▸ hk)).bound) hsize hj
    rw [hs.functions_eq] at hmem
    exact ⟨j, (hframed.nested i hi j hmem).bound, hof, .inr ⟨i, hi, hmem⟩⟩

/-- Each lowered body has a unit. The induction is on the fuel: functions come after the bodies that
they are nested in, so that there is enough of it for those that are left. -/
theorem assembleBody_eq (hframed : L.program.Framed []) (hs : L.Sound s)
    (hdone : ∀ j : BodyId, j.index < L.size → L.Done config s j L.nodeCount) (fromEvalCode : Bool)
    (hj : j.index < L.size) (hfuel : L.size - j.index ≤ fuel) :
    Assembles (s.program.assembleBody config fromEvalCode fuel j)
      fun error => ∃ k : BodyId, k.index < s.program.bodies.size ∧
        error.IsLimit s.program.tree (s.program.statements k).ids := by
  induction fuel generalizing j with
  | zero => omega
  | succ fuel ih =>
    rw [Program.assembleBody]
    refine (Assembles.mapM fun k hk => ?_).bind fun nested => .bind ?_ fun out => Assembles.pure _
    · rw [hs.functions_eq j] at hk
      have hnests := hframed.nested j hj k hk
      have hlater := hnests.later
      exact ih hnests.bound (by omega)
    · rcases (hdone j hj).emit_eq hs with ⟨out, ws, hout, -⟩ | ⟨error, herror, hlimit⟩
      · exact ⟨.ok out, hout, nofun⟩
      · refine ⟨.error error, herror, fun error' heq => ?_⟩
        obtain rfl := Except.error.inj heq
        exact ⟨j, by rw [hs.bodies_size]; exact hj, hlimit⟩

/-- Compiling a program that can be lowered comes to something. -/
theorem compile_eq (hframed : L.program.Framed []) (hsize : 0 < L.size)
    (hlower : L.program.lower config = .ok (s.program, s.diagnostics)) (hs : L.Sound s)
    (hdone : ∀ j : BodyId, j.index < L.size → L.Done config s j L.nodeCount) (fromEvalCode : Bool) :
    ∃ r, L.program.compile config fromEvalCode = .ok r ∧
      ∀ error, r = .error (.code error) → ∃ j : BodyId, j.index < s.program.bodies.size ∧
        error.IsLimit s.program.tree (s.program.statements j).ids := by
  rw [Program.compile_of_lower hlower]
  split
  · exact ⟨_, rfl, nofun⟩
  · have hfuel : L.size - BodyId.script.index ≤ s.program.bodies.size + 1 := by
      rw [hs.bodies_size]
      omega
    obtain ⟨r, hrun, hrefused⟩ := assembleBody_eq hframed hs hdone fromEvalCode hsize hfuel
    have hassemble : s.program.assemble config fromEvalCode = .ok r := hrun
    refine ⟨r.mapError .code, by rw [hassemble]; rfl, fun error herror => ?_⟩
    cases r with
    | ok u => cases herror
    | error error' =>
      obtain rfl : error' = error := by simpa [Except.mapError] using herror
      exact hrefused error' rfl

end Layout

/-- Compiling a document whose operators are operators never fails internally: it comes to a unit,
to the complaints of lowering, to a limit of the format that is exceeded, or to a variable of a
lowered body with a slot that is too large for an operand. -/
theorem compile_never_faults {script : Document.Script} {fallback : Option String} {p : Program}
    (hops : script.usesOperators) (hbuild : Document.build script fallback = .ok (.ok p))
    (config : Config) (fromEvalCode : Bool) :
    ∃ r, p.compile config fromEvalCode = .ok r ∧
      ∀ error, r = .error (.code error) → error.isRange = true ∨
        ∃ p' diagnostics, p.lower config = .ok (p', diagnostics) ∧
          ∃ j : BodyId, j.index < p'.bodies.size ∧ ∃ id ∈ (p'.statements j).ids, ∃ slot : Nat,
            error = .noVariableSlot id ∧ (p'.tree.kind id = .getVar ∨ p'.tree.kind id = .setVar) ∧
            p'.tree.attr? id .varIndex = some (.int slot) ∧ 2 ^ 16 ≤ slot := by
  obtain ⟨hframed, hsize⟩ := Document.build_framed hops hbuild
  obtain ⟨L, rfl⟩ := hframed.exists_layout
  obtain ⟨s, hlower, hs, hdone, -⟩ := L.lower_eq config
  obtain ⟨r, hr, hcode⟩ := L.compile_eq hframed hsize hlower hs hdone fromEvalCode
  refine ⟨r, hr, fun error herror => ?_⟩
  obtain ⟨j, hj, hrange | hslot⟩ := hcode error herror
  · exact .inl hrange
  · exact .inr ⟨s.program, s.diagnostics, hlower, j, hj, hslot⟩

/-- A labelled loop that is continued out of a with statement and a try with a finally block. -/
theorem compile_never_faults_of_loop :
    let script : Document.Script := ⟨none, [.labelled "l" (.whileLoop (.name "x")
      (.withScope (.name "y") (.tryCatch [.continueTo (some "l") 3] [] (some []) 3) 2) 2) 1], 4⟩
    ∃ p r, script.usesOperators = true ∧ Document.build script none = .ok (.ok p) ∧
      p.compile {} false = .ok r ∧ ∀ target, r ≠ .error (.code (.unplacedTarget target)) := by
  intro script
  have hops : script.usesOperators = true := by decide
  have hmade : Document.buildsTo script none fun _ => true := by decide +kernel
  obtain ⟨p, hbuild, -⟩ := Document.exists_buildsTo hmade
  obtain ⟨r, hr, herrors⟩ := compile_never_faults hops hbuild {} false
  refine ⟨p, r, hops, hbuild, hr, fun target heq => ?_⟩
  rcases herrors _ heq with hrange | ⟨p', diagnostics, -, j, -, id, -, slot, hslot, -⟩
  · cases hrange
  · cases hslot

end ScriptEngine
