import ScriptEngine.Proofs.LoweringStates

/-!
# What lowering is made of

Every step of lowering is put together from a few computations: it reads the program and the body
that is being lowered, edits the tree, notes what has been found out about a body, and reports. A
property that these have, and that a computation has if its parts have it, is one of every step.
-/

namespace ScriptEngine

open Lowering

/-- A property of computations that have it if their parts have it. -/
structure LowerM.Closed (P : (α : Type) → LowerM α → Prop) : Prop where
  pure : ∀ {α : Type} (a : α), P α (pure a)
  throw : ∀ {α : Type} (fault : Fault), P α (throw fault)
  lift : ∀ {α : Type} (e : Except Fault α), P α (liftM e)
  bind : ∀ {α β : Type} {m : LowerM α} {f : α → LowerM β}, P α m → (∀ a, P β (f a)) → P β (m >>= f)
  read : ∀ {α : Type} {f : Program → LowerM α}, (∀ p, P α (f p)) →
    P α (get >>= fun s => f s.program)
  openBody : P OpenBody openBody
  onTree : ∀ {α : Type} (m : TreeM α), P α (onTree m)
  modifyOpenBody : ∀ f, P Unit (modifyOpenBody f)
  modifyBody : ∀ id f, (∀ b : Body, (f b).frozen = b.frozen) → P Unit (modifyBody id f)
  report : ∀ node error, P Unit (report node error)

namespace LowerM.Closed

variable {P : (α : Type) → LowerM α → Prop} (h : Closed P)

include h

theorem tree : P Tree tree := h.read fun _ => h.pure _

/-- The slot of a name is read off the record of the body. -/
theorem localSlot? (config : Config) (name : String) : P (Option Nat) (localSlot? config name) := by
  have hrecord (id : BodyId) : P (Option Nat) (do
      let record := (← get).program.body id
      return if record.requiresActivation then none else record.vars.get? name) :=
    h.read (f := fun p => Pure.pure (if (p.body id).requiresActivation then none
      else (p.body id).vars.get? name)) fun _ => h.pure _
  unfold Lowering.localSlot? requireActivation
  repeat' first
    | exact h.pure _ | exact h.openBody | exact h.modifyBody _ _ fun _ => rfl | exact hrecord _
    | refine h.bind ?_ fun _ => ?_ | split

/-- A node is changed by steps that are bound to each other and told apart by matches. -/
theorem lowerNode (config : Config) (parent node : NodeId) :
    P Visit (lowerNode config parent node) := by
  have hslot := h.localSlot? config
  refine h.bind h.tree fun t => ?_
  unfold lowerKind lowerFunctionNode lowerLabel lowerSwitch recordClause lowerWith lowerTry
    closeRegions lowerReturn lowerJump takeLabel lowerCall lowerGetProp lowerVar lowerName
    lowerSetName lowerDelete noteChange openRegion requireActivation
  repeat' first
    | with_reducible first
      | exact h.pure _ | exact h.openBody | exact h.tree | exact h.onTree _ | exact h.throw _
      | exact h.modifyBody _ _ fun _ => rfl | exact h.modifyOpenBody _ | exact h.report _ _
      | exact h.lift _ | exact hslot _
      | refine h.read (f := fun p => liftM (p.checkBody _) >>= _) fun _ => ?_
      | refine h.bind ?_ fun _ => ?_
    | split
    | extract_lets

/-- The end of a body. -/
theorem finishBody : P Unit finishBody := by
  refine h.bind h.openBody fun body =>
    h.read (f := fun p => ite (p.body body.id).requiresActivation _ _) fun p => ?_
  split
  · exact h.bind (h.onTree _) fun _ => h.modifyBody _ _ fun _ => rfl
  · exact h.modifyBody _ _ fun _ => rfl

/-- The way through a body, and what comes behind it. -/
theorem body {walk : NodeId → Option NodeId → LowerM Unit} {m : LowerM Unit}
    (hwalk : ∀ root cursor, P Unit (walk root cursor)) (hm : P Unit m) (id : BodyId) :
    P Unit (do
      let root := ((← get).program.body id).root
      walk root ((← Lowering.tree).firstChild? root)
      m) :=
  h.read (f := fun p => Lowering.tree >>= fun t =>
    walk (p.body id).root (t.firstChild? (p.body id).root) >>= fun _ => m) fun _ =>
      h.bind h.tree fun _ => h.bind (hwalk _ _) fun _ => hm

end LowerM.Closed

/-- A property that is closed, and that computations have too that take up a body unless it has been
taken up before. -/
structure LowerM.ClosedOverBodies (P : (α : Type) → LowerM α → Prop) : Prop extends Closed P where
  takeUp : ∀ (id : BodyId) {g : OpenBody → LowerM Unit} {m : LowerM Unit},
    (∀ outer, P Unit (g outer)) → P Unit m → P Unit (do
      if !(← isStarted id) then
        let outer ← Lowering.openBody
        startBody id
        g outer
      else m)

namespace LowerM.ClosedOverBodies

variable {P : (α : Type) → LowerM α → Prop} (h : ClosedOverBodies P)

include h

/-- The walk is made of such computations. -/
theorem walk (config : Config) (fuel : Nat) (parent : NodeId) (cursor : Option NodeId) :
    P Unit (walk config fuel parent cursor) := by
  induction fuel generalizing parent cursor with
  | zero =>
    cases cursor with
    | none => exact h.pure _
    | some node => exact h.throw _
  | succ fuel ih =>
    cases cursor with
    | none => exact h.pure _
    | some node =>
      rw [Lowering.walk]
      refine h.bind (h.lowerNode config parent node) fun visit => ?_
      have hnext (node : NodeId) :
          P Unit (do Lowering.walk config fuel parent ((← Lowering.tree).next? node)) :=
        h.bind h.tree fun _ => ih _ _
      cases visit with
      | children node => exact h.bind h.tree fun _ => h.bind (ih _ _) fun _ => hnext node
      | done node => exact hnext node
      | function node id =>
        exact h.takeUp id (fun _ => h.body ih (h.bind h.finishBody fun _ =>
          h.bind (h.modifyOpenBody _) fun _ => hnext node) id) (hnext node)

theorem lowerBody (config : Config) (fuel : Nat) (id : BodyId) :
    P Unit (lowerBody config fuel id) :=
  h.takeUp id (fun _ => h.body (h.walk config fuel) h.finishBody id) (h.pure _)

end LowerM.ClosedOverBodies

end ScriptEngine
