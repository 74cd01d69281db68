import ScriptEngine.Proofs.Compilation
import ScriptEngine.Proofs.Complaints
import ScriptEngine.Proofs.LoweringSteps

/-!
# Reported errors

Lowering reports the complaints about a program, and nothing in it looks at what has been reported.
So the limit of the collector decides which complaints are kept, and nothing else.
-/

namespace ScriptEngine

/-- The state without its diagnostics. -/
def LoweringState.silent (s : LoweringState) : LoweringState := { s with diagnostics := {} }

/-- What comes of a computation, apart from diagnostics. -/
def LowerM.outcome {α : Type} (m : LowerM α) (s : LoweringState) :
    Except Fault (α × LoweringState) := (m.run s).map fun r => (r.1, r.2.silent)

/-- A computation does not look at diagnostics. -/
def LowerM.Blind {α : Type} (m : LowerM α) : Prop :=
  ∀ s s' : LoweringState, s.silent = s'.silent → m.outcome s = m.outcome s'

namespace LowerM.Blind

variable {α β : Type} {m : LowerM α} {f : α → LowerM β}

private theorem of_silent (h : ∀ s, m.outcome s = m.outcome s.silent) : Blind m := by
  intro s s' hs
  rw [h s, h s', hs]

/-- A step and then the rest. -/
theorem bind (hm : Blind m) (hf : ∀ a, Blind (f a)) : Blind (m >>= f) := by
  intro s s' hs
  have hstep := hm s s' hs
  simp only [outcome, StateT.run_bind] at hstep ⊢
  cases hrun : m.run s with
  | error fault =>
    cases hrun' : m.run s' with
    | error fault' =>
      rw [hrun, hrun'] at hstep
      cases hstep
      rfl
    | ok r' =>
      rw [hrun, hrun'] at hstep
      cases hstep
  | ok r =>
    cases hrun' : m.run s' with
    | error fault' =>
      rw [hrun, hrun'] at hstep
      cases hstep
    | ok r' =>
      rw [hrun, hrun'] at hstep
      obtain ⟨ha, ht⟩ : r.1 = r'.1 ∧ r.2.silent = r'.2.silent := by
        simpa [Except.map] using hstep
      show (f r.1).outcome r.2 = (f r'.1).outcome r'.2
      rw [ha]
      exact hf r'.1 r.2 r'.2 ht

/-- A step that reads something else of the state. -/
theorem get_bind {g : LoweringState → LowerM β} (hsame : ∀ s, g s = g s.silent)
    (hg : ∀ s, Blind (g s)) : Blind (get >>= g) := by
  refine of_silent fun s => ?_
  show (g s).outcome s = (g s.silent).outcome s.silent
  rw [← hsame s]
  exact hg s s s.silent rfl

/-- Whatever lowering is made of does not look at diagnostics. -/
theorem closed : ClosedOverBodies fun _ m => Blind m where
  pure _ := .of_silent fun _ => rfl
  throw _ := .of_silent fun _ => rfl
  lift e := .of_silent fun _ => by cases e <;> rfl
  bind := .bind
  read hf := .get_bind (fun _ => rfl) fun s => hf s.program
  openBody := .of_silent fun _ => rfl
  onTree m := by
    refine .of_silent fun s => ?_
    show (Lowering.onTree m s).map _ = (Lowering.onTree m s.silent).map _
    unfold Lowering.onTree
    have htree : s.silent.program = s.program := rfl
    rw [htree]
    cases m s.program.tree <;> rfl
  modifyOpenBody _ := .of_silent fun _ => rfl
  modifyBody _ _ _ := .of_silent fun _ => rfl
  report _ _ := .of_silent fun _ => rfl
  takeUp id _ _ hg hm := .bind (.of_silent fun _ => rfl) fun started => by
    cases started with
    | true => exact hm
    | false =>
      exact .bind (.of_silent fun _ => rfl) fun outer =>
        .bind (m := Lowering.startBody id) (.of_silent fun _ => rfl) fun _ => hg outer

/-- The bodies are lowered one after the other. -/
theorem lowerBodies (config : Config) (fuel : Nat) (ids : List BodyId) :
    Blind (ids.forM (Lowering.lowerBody config fuel)) := by
  induction ids with
  | nil => exact closed.pure ()
  | cons id ids ih => exact (closed.lowerBody config fuel id).bind fun _ => ih

end LowerM.Blind

namespace Lowering

private theorem walk_limit (config : Config) (limit fuel : Nat) (parent : NodeId)
    (cursor : Option NodeId) :
    walk { config with maxDiagnostics := limit } fuel parent cursor =
      walk config fuel parent cursor := by
  have hnode : lowerNode { config with maxDiagnostics := limit } = lowerNode config := rfl
  induction fuel generalizing parent cursor with
  | zero => cases cursor <;> rfl
  | succ fuel ih =>
    cases cursor with
    | none => rfl
    | some node =>
      have hwalk : walk { config with maxDiagnostics := limit } fuel = walk config fuel :=
        funext fun parent => funext fun cursor => ih parent cursor
      rw [walk, walk, hnode, hwalk]

private theorem lowerBody_limit (config : Config) (limit fuel : Nat) :
    lowerBody { config with maxDiagnostics := limit } fuel = lowerBody config fuel := by
  funext id
  have hwalk : walk { config with maxDiagnostics := limit } fuel = walk config fuel :=
    funext fun parent => funext fun cursor => walk_limit config limit fuel parent cursor
  rw [lowerBody, lowerBody, hwalk]

end Lowering

/-- The lowered program is part of what comes of lowering its bodies, apart from diagnostics. -/
theorem Program.lower_fst (p : Program) (config : Config) :
    (p.lower config).map Prod.fst =
      ((((List.range p.bodies.size).map BodyId.mk).forM
        (Lowering.lowerBody config (Lowering.walkFuel p))).outcome
          { program := p
            diagnostics := { limit := some config.maxDiagnostics }
            started := Array.replicate p.bodies.size false
            body := { id := .script, inFunction := false } }).map fun r => r.2.program := by
  have hall (r : Except Fault (Unit × LoweringState)) :
      (do let (_, s) ← r; return (s.program, s.diagnostics) : Except Fault _).map Prod.fst =
        (r.map fun r => (r.1, r.2.silent)).map fun r => r.2.program := by
    cases r <;> rfl
  exact hall _

/-- The lowered program does not depend on the limit. -/
theorem Program.lower_limit (p : Program) (config : Config) (limit : Nat) :
    (p.lower { config with maxDiagnostics := limit }).map Prod.fst =
      (p.lower config).map Prod.fst := by
  rw [lower_fst, lower_fst, Lowering.lowerBody_limit]
  exact congrArg _ (LowerM.Blind.lowerBodies _ _ _ _ _ rfl)

/-- The complaints about a program are reported in their order, up to the limit, and are all
counted. The limit changes nothing else. A program with complaints is not compiled, even if none of
them is kept. -/
theorem lower_reports_complaints {script : Document.Script} {fallback : Option String} {p : Program}
    (hops : script.usesOperators) (hbuild : Document.build script fallback = .ok (.ok p))
    (config : Config) :
    ∃ p', ∀ limit,
      p.lower { config with maxDiagnostics := limit } = .ok (p',
        { limit := some limit
          items := p.complaints.take limit
          dropped := p.complaints.length - (p.complaints.take limit).length
          errors := p.complaints.length }) ∧
      ∀ fromEvalCode,
        (∃ diagnostics, p.compile { config with maxDiagnostics := limit } fromEvalCode =
          .ok (.error (.complaints diagnostics))) ↔ p.complaints ≠ [] := by
  obtain ⟨hframed, hsize⟩ := Document.build_framed hops hbuild
  obtain ⟨L, rfl⟩ := hframed.exists_layout
  have hlower (limit : Nat) : ∃ p', L.program.lower { config with maxDiagnostics := limit } =
      .ok (p', .collected limit L.program.complaints) := by
    obtain ⟨s, hrun, -, -, htells⟩ := L.lower_eq { config with maxDiagnostics := limit }
    have hdiagnostics : s.diagnostics = _ := L.diagnostics_eq htells
    exact ⟨s.program, by rw [hrun, hdiagnostics]⟩
  obtain ⟨p', hp'⟩ := hlower config.maxDiagnostics
  have hsame (limit : Nat) : L.program.lower { config with maxDiagnostics := limit } =
      .ok (p', .collected limit L.program.complaints) := by
    obtain ⟨q, hq⟩ := hlower limit
    have heq : (.ok q : Except Fault Program) = .ok p' :=
      calc Except.ok q
        _ = (L.program.lower { config with maxDiagnostics := limit }).map Prod.fst := by
          rw [hq]
          rfl
        _ = (L.program.lower config).map Prod.fst := L.program.lower_limit config limit
        _ = .ok p' := by rw [hp']; rfl
    cases heq
    exact hq
  refine ⟨p', fun limit => ⟨hsame limit, fun fromEvalCode => ?_⟩⟩
  rw [Program.compile_of_lower (hsame limit)]
  by_cases hnone : L.program.complaints = []
  · -- Without complaints, what is assembled is no list of complaints.
    have herrors : (Diagnostics.collected limit L.program.complaints).hasErrors = false := by
      simp [Diagnostics.hasErrors, Diagnostics.collected, hnone]
    rw [herrors]
    refine ⟨fun hfails => ?_, fun hsome => absurd hnone hsome⟩
    obtain ⟨diagnostics, hrun⟩ := hfails
    rcases hassemble : p'.assemble { config with maxDiagnostics := limit } fromEvalCode
      with _ | _ | _ <;>
      rw [hassemble] at hrun <;> cases hrun
  · have herrors : (Diagnostics.collected limit L.program.complaints).hasErrors = true := by
      simpa [Diagnostics.hasErrors, Diagnostics.collected, List.length_pos_iff] using hnone
    rw [herrors]
    exact ⟨fun _ => hnone, fun _ => ⟨_, rfl⟩⟩

/-- A label inside a loop with the same label, a jump to a label that is not there, and in a
function a `continue` without a loop; one complaint is kept. -/
theorem lower_reports_complaints_of_labels :
    let script : Document.Script := ⟨none, [.labelled "l" (.whileLoop (.name "x")
      (.labelled "l" (.breakTo (some "m") 3) 2) 1) 1,
      .function (.mk "f" [] [.continueTo none 5] 4 6 none)], 6⟩
    let first : Diagnostic := ⟨"duplicate label 'l'", none, some 2, .error⟩
    ∃ p p', script.usesOperators = true ∧ Document.build script none = .ok (.ok p) ∧
      p.complaints = [first, ⟨"undefined label 'm'", none, some 3, .error⟩,
        ⟨"continue must be inside loop", none, some 5, .error⟩] ∧
      p.lower { maxDiagnostics := 1 } = .ok (p', ⟨some 1, [first], 2, 3⟩) ∧
      ∃ diagnostics, p.compile { maxDiagnostics := 0 } false =
        .ok (.error (.complaints diagnostics)) := by
  intro script first
  have hops : script.usesOperators = true := by decide
  have hmade : Document.buildsTo script none (fun p => decide (p.complaints =
      [first, ⟨"undefined label 'm'", none, some 3, .error⟩,
        ⟨"continue must be inside loop", none, some 5, .error⟩])) = true := by decide +kernel
  obtain ⟨p, hbuild, hcomplaints⟩ := Document.exists_buildsTo hmade
  have hcomplaints := of_decide_eq_true hcomplaints
  obtain ⟨p', hp'⟩ := lower_reports_complaints hops hbuild {}
  refine ⟨p, p', hops, hbuild, hcomplaints, ?_, ((hp' 0).2 false).mpr (by simp [hcomplaints])⟩
  have hone := (hp' 1).1
  rw [hcomplaints] at hone
  exact hone

end ScriptEngine
