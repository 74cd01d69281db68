import ScriptEngine.Proofs.LocalSlots
import ScriptEngine.Proofs.Places

/-!
# Returns run finally blocks

A return out of the guarded part of a try must run the finally block on its way. With a value it
becomes a block: the value is stored, the scopes around the return are left, innermost first, and
the stored value is returned. Without a value the same steps stand in front of it. A return with
nothing around it stays as it is, right behind what the statements before it have become.
-/

namespace ScriptEngine

/-- Expressions of a lowered body: they keep their nodes, and the variables are accessed by their
slots if the body does so. Then a constant stands where such a variable was deleted. Nodes from
`first` on are new. -/
def Body.KeepsValue (b : Body) (first : Nat) (f h : Forest) : Prop :=
  if b.usesSlots then ∃ constant : NodeId → NodeId, (∀ q, first ≤ (constant q).index) ∧
    h = (f.marked b.isFunction).bySlots b.vars constant
  else h = f.marked b.isFunction

private theorem Body.keepsValue_nil (b : Body) (first : Nat) : b.KeepsValue first .nil .nil := by
  unfold KeepsValue
  split
  · exact ⟨fun _ => ⟨first⟩, fun _ => Nat.le_refl _, rfl⟩
  · rfl

private theorem Body.KeepsValue.eq_nil {b : Body} {first : Nat} {h : Forest}
    (hkeeps : b.KeepsValue first .nil h) : h = .nil := by
  unfold KeepsValue at hkeeps
  split at hkeeps
  · exact hkeeps.choose_spec.2
  · exact hkeeps

/-- What becomes of a return out of a guarded part: a step for each of the scopes around it, and
either the return itself or a block that stores the value first. Nodes from `first` on are new. -/
inductive Place.Unwound (body : Body) (first : Nat) (place : Place) : Forest → Prop
  | early {steps} (hnone : place.kids = .nil)
      (hsteps : steps.map Prod.snd = place.around.map Unwinding.step)
      (hnew : ∀ step ∈ steps, first ≤ step.1.index) :
      Unwound body first place (.leaves steps ++ .leaf place.node place.label)
  | late {value block store steps back} (hvalue : body.KeepsValue first place.kids value)
      (hsteps : steps.map Prod.snd = place.around.map Unwinding.step)
      (hnew : ∀ step ∈ steps, first ≤ step.1.index)
      (hnew' : first ≤ block.index ∧ first ≤ store.index ∧ first ≤ back.index) :
      Unwound body first place (.tree block (.ofKindAt .block place.label.line)
        (.cons store ((Node.ofKind .popv).withLine place.label.line) value
          (.leaves steps ++ .leaf back (.ofKindAt .returnPopv place.label.line))))

/-- A guarded part is around if a scope for it is. -/
theorem Scope.any_isGuarded {E : List Scope} (h : (Scope.unwindings E).any Unwinding.isGuarded) :
    ∃ scope ∈ E, scope.kind = .tryStmt := by
  obtain ⟨around, hin, hguarded⟩ := List.any_eq_true.mp h
  obtain ⟨scope, hscope, heq⟩ := List.mem_filterMap.mp hin
  refine ⟨scope, hscope, ?_⟩
  cases scope with
  | guarded => rfl
  | withBody =>
    cases heq
    cases hguarded
  | loop | switch | label => cases heq

namespace Lowered

variable {site : Site} {E : List Scope} {w : Nat} {past : Bool} {made made' : Forest}
  {events : List Event} {limits : Limits} {place : Place} {p : NodeId} {first : Nat}
  {changes : List SlotChange} {cut : Forest} {body : Body}

/-- By the time a return in a guarded part is lowered, the finally block has been noted. -/
theorem past_of_guarded (hlow : Lowered site E .one w past place.tree made events)
    (hkind : place.label.kind = .ret) (hguarded : ∃ scope ∈ E, scope.kind = .tryStmt) :
    past = true := by
  obtain ⟨scope, hin, htry⟩ := hguarded
  by_contra hpast
  obtain ⟨id, l, kids, around⟩ := place
  generalize hf : Place.tree ⟨id, l, kids, around⟩ = f at hlow
  cases hlow with
  | ret _ hnone | retValue _ hnone => exact hnone (by simpa using hpast) scope hin htry
  | retLater _ htrue => exact hpast htrue
  | _ =>
    obtain ⟨-, rfl, -⟩ := Forest.cons.inj hf
    simp_all [Token.isKept, Token.isPlain]

/-- The value of a return. -/
theorem keepsValue {value : Forest} (hlow : Lowered site E .one w past value made events)
    (hplaced : value.Placed limits Token.isOperand Token.isOperand) (hnodup : value.ids.Nodup)
    (hs : Slotted (body.slotRules first) p changes cut made made')
    (hin : body.isFunction = site.inFunction) : body.KeepsValue first value made' := by
  have hmade := hlow.operands_eq (by simp) hplaced
  rw [← hin] at hmade
  unfold Body.KeepsValue
  split
  · next huse =>
    rw [← hmade]
    refine hs.eq_bySlots huse ?_
    rw [hlow.deletions_eq]
    exact hnodup.sublist (Forest.deletions_sublist_ids _)
  · next huse => exact (hs.eq_of_not_may huse).trans hmade

/-- A return out of a guarded part. -/
theorem unwound (hlow : Lowered site E .one w past place.tree made events)
    (hkind : place.label.kind = .ret)
    (hplaced : place.kids.Placed limits Token.isOperand Token.isOperand)
    (haround : place.around = Scope.unwindings E)
    (hguarded : place.around.any Unwinding.isGuarded) (hnodup : place.kids.ids.Nodup)
    (hs : Slotted (body.slotRules site.first) p changes cut made made')
    (hin : body.isFunction = site.inFunction) : place.Unwound body site.first made' := by
  obtain rfl : past = true := hlow.past_of_guarded hkind (Scope.any_isGuarded (haround ▸ hguarded))
  obtain ⟨id, l, kids, around⟩ := place
  have hscopes : E.filterMap Scope.step? = around.map Unwinding.step := by
    rw [Scope.filterMap_step?, ← haround]
  generalize hf : Place.tree ⟨id, l, kids, around⟩ = f at hlow
  cases hlow with
  | ret _ _ hsteps hnew =>
    cases hf
    rw [if_pos rfl] at hsteps
    obtain ⟨front, last, _, _, _, _, rfl, hfront, hlast⟩ := hs.append_inv
    rw [hfront.leaves_inv (Scope.isFirm_steps hsteps), hlast.leaf_inv (by rw [hkind]; rfl)]
    exact .early rfl (hsteps.trans hscopes) hnew
  | retValue _ _ hsome =>
    -- There is a scope to leave.
    have hempty : around = [] := by simpa [hscopes] using hsome
    simp [hempty] at hguarded
  | retLater _ _ _ hvalue hsteps hnew hblock hstore hback =>
    cases hf
    obtain ⟨_, _, _, _, inside, _, rfl, hinside, hnil⟩ := hs.firm_inv rfl
    obtain ⟨_, _, _, _, value, _, rfl, hstored, hrest⟩ := hinside.firm_inv rfl
    obtain ⟨front, last, _, _, _, _, rfl, hfront, hlast⟩ := hrest.append_inv
    rw [hnil.nil_inv.2.2, hfront.leaves_inv (Scope.isFirm_steps hsteps), hlast.leaf_inv rfl]
    exact .late (hvalue.keepsValue hplaced hnodup hstored hin) (hsteps.trans hscopes)
      hnew ⟨hblock, hstore, hback⟩
  | _ =>
    obtain ⟨-, rfl, -⟩ := Forest.cons.inj hf
    simp_all [Token.isKept, Token.isPlain]

/-- A return with nothing around it. -/
theorem untouched (hlow : Lowered site E .one w past place.tree made events)
    (hkind : place.label.kind = .ret)
    (hplaced : place.kids.Placed limits Token.isOperand Token.isOperand)
    (haround : place.around = Scope.unwindings E) (hnone : place.around = [])
    (hnodup : place.kids.ids.Nodup) (hs : Slotted (body.slotRules first) p changes cut made made')
    (hin : body.isFunction = site.inFunction) :
    ∃ value, made' = .tree place.node place.label value ∧
      body.KeepsValue first place.kids value := by
  have hscopes : E.filterMap Scope.step? = [] := by
    rw [Scope.filterMap_step?, ← haround, hnone]
    rfl
  obtain ⟨id, l, kids, around⟩ := place
  generalize hf : Place.tree ⟨id, l, kids, around⟩ = f at hlow
  cases hlow with
  | @ret _ _ _ _ _ steps _ _ hsteps =>
    cases hf
    obtain rfl : steps = [] := by simpa [hscopes] using hsteps
    exact ⟨.nil, hs.leaf_inv (by rw [hkind]; rfl), body.keepsValue_nil _⟩
  | retValue _ _ _ hvalue =>
    cases hf
    obtain ⟨_, _, _, _, value, _, rfl, hinside, hnil⟩ := hs.firm_inv (by rw [hkind]; rfl)
    rw [hnil.nil_inv.2.2]
    exact ⟨value, rfl, hvalue.keepsValue hplaced hnodup hinside hin⟩
  | retLater _ _ hsome => exact absurd hscopes hsome
  | _ =>
    obtain ⟨-, rfl, -⟩ := Forest.cons.inj hf
    simp_all [Token.isKept, Token.isPlain]

end Lowered

/-- In a body of the second program, `made` stands where a node stood in the first: below the same
node, right behind what the siblings in front of it have become. -/
structure Program.Replaces (p q : Program) (j : BodyId) (place : Place) (made : Forest) : Prop where
  inPlace : Forest.InPlace p.tree.size place.tree made (p.statements j) (q.statements j)
  spells : q.tree.Spells made
  siblings : ∃ parent before after before' after',
    p.tree.children parent = before ++ place.node :: after ∧
    q.tree.children parent = before' ++ (made.roots ++ after') ∧
    p.tree.Become q.tree p.tree.size before before'

/-- What is in the place of a return stands below the same node. -/
theorem Layout.Done.replaces {L : Layout} {config : Config} {s : LoweringState} {j : BodyId}
    {first : Nat} (hframed : L.program.Framed []) (hs : L.Sound s) (hd : L.Done config s j first)
    (hj : j.index < L.size) {place : ScriptEngine.Place} {made : Forest}
    (hkind : place.label.kind = .ret)
    (hin : Forest.InPlace L.nodeCount place.tree made (L.program.statements j)
      (s.program.statements j)) : L.program.Replaces s.program j place made := by
  obtain ⟨hmade, parent, -, before', after', hchildren', hplace⟩ := hd.standsFor hframed hs hj hin
  obtain ⟨before, after, hchildren, hbecome⟩ := hplace.resolve_left fun hclause => by
    have hroot : place.label.kind.isClause := hclause.1
    rw [hkind] at hroot
    cases hroot
  exact ⟨hin, hmade, parent, before, after, before', after', hchildren, hchildren', hbecome⟩

end ScriptEngine
