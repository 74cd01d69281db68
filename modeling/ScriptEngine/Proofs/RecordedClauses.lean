import ScriptEngine.Proofs.BodyNotes
import ScriptEngine.Proofs.Renaming

/-!
# Recorded clauses are old

Lowering makes no clauses and no switches: those that it records with each other have been there
before. So other names for new nodes leave what is recorded as it is.
-/

namespace ScriptEngine

variable {site : Site} {first : Nat} {f : Forest} {events : List Event} {a : Ledger} {i : BodyId}

/-- If the event is a clause, it and its switch are before a bound. -/
def Event.RecordsOld (first : Nat) : Event → Prop
  | .clause switch _ node => switch.index < first ∧ node.index < first
  | _ => True

/-- The clauses of a forest are recorded with switches of it, or with the switch around it. -/
theorem Forest.recordsOld_notes {c : Surroundings} (hold : ∀ q ∈ f.ids, q.index < first)
    (hc : ∀ s ∈ c.switch, s.index < first) : ∀ e ∈ f.notes site c, e.RecordsOld first := by
  induction f generalizing c with
  | nil => simp
  | cons id l kids rest ihk ihr =>
    simp only [ids_cons, List.mem_cons, List.mem_append, or_imp, forall_and, forall_eq] at hold
    obtain ⟨hid, hkids, hrest⟩ := hold
    have hbelow : ∀ s ∈ (c.below id l).switch, s.index < first := by
      unfold Surroundings.below
      dsimp only
      split
      · simpa using hid
      · exact hc
    rw [notes_cons, List.forall_mem_append, List.forall_mem_append]
    refine ⟨fun e he => ?_, ihk hkids hbelow, ihr hrest hc⟩
    by_cases hkind : l.kind.isFree
    · rcases Site.mem_notes_of_isFree hkind he with rfl | ⟨k, rfl⟩ <;> trivial
    · have hclause : l.kind = .switchCase ∨ l.kind = .switchDefault := by
        revert hkind
        unfold Token.isFree Token.isClause
        split <;> simp_all
      rcases hclause with hk | hk <;>
      · simp only [Site.notes, hk, List.mem_map, Option.mem_toList] at he
        obtain ⟨s, hs, rfl⟩ := he
        exact ⟨hc s hs, hid⟩

/-- The events of a body record nodes of before. -/
theorem Lowered.recordsOld {w : Nat} {past : Bool} {h : Forest}
    (hlow : Lowered site [] .list w past f h events) (hold : ∀ q ∈ f.ids, q.index < site.first) :
    ∀ e ∈ events, e.RecordsOld site.first := by
  intro e he
  by_cases hnote : e.isNote
  · have hmem : e ∈ events.filter Event.isNote := List.mem_filter.mpr ⟨he, hnote⟩
    rw [hlow.notes_eq (c := { parent := .script }) ⟨rfl, rfl, fun _ _ => rfl, nofun⟩] at hmem
    exact Forest.recordsOld_notes hold (by simp) e hmem
  · cases e with
    | clause => exact absurd rfl hnote
    | _ => trivial

/-! ## Ledgers -/

/-- Clauses before a bound are recorded, with switches before the bound. -/
def Ledger.ClausesOld (a : Ledger) (first : Nat) : Prop :=
  ∀ q, (first ≤ q.index → a.clauses q = {}) ∧
    ∀ r ∈ (NodeData.switch (a.clauses q)).refs, r.index < first

namespace Ledger.ClausesOld

variable {e : Event}

private theorem apply (h : a.ClausesOld first) (he : e.RecordsOld first) :
    (a.apply i e).ClausesOld first := by
  cases e with
  | complaint | activation | attempt | guard | receiver | function => exact h
  | clause switch isCase node =>
    obtain ⟨hswitch, hnode⟩ := he
    intro q
    by_cases hq : q = switch
    · subst hq
      refine ⟨fun hle => absurd hswitch (by omega), fun r hr => ?_⟩
      have hold := (h q).2
      simp only [Ledger.apply, Function.update_self, SwitchData.record] at hr
      simp only [NodeData.refs, List.mem_append] at hr hold
      cases isCase with
      | true =>
        simp only [if_true, List.mem_append, List.mem_singleton] at hr
        rcases hr with hr | (hr | rfl) | hr
        exacts [hold r (.inl hr), hold r (.inr (.inl hr)), hnode, hold r (.inr (.inr hr))]
      | false =>
        simp only [Bool.false_eq_true, if_false, Option.toList_some, List.mem_singleton] at hr
        rcases hr with hr | hr | rfl
        exacts [hold r (.inl hr), hold r (.inr (.inl hr)), hnode]
    · have hsame : (a.apply i (.clause switch isCase node)).clauses q = a.clauses q :=
        Function.update_of_ne hq ..
      rw [hsame]
      exact h q

/-- Other names for new nodes leave the clauses as they are. -/
theorem rename_eq (h : a.ClausesOld first) {ρ : NodeId → NodeId} (hfix : Fixes first ρ)
    (hinj : Function.Injective ρ) (q : NodeId) : a.clauses (ρ q) = (a.clauses q).rename ρ := by
  by_cases hq : q.index < first
  · have hkept : (NodeData.switch (a.clauses q)).rename ρ = _ :=
      NodeData.rename_eq_self fun r hr => hfix r ((h q).2 r hr)
    rw [hfix q hq]
    exact (NodeData.switch.inj hkept).symm
  · -- A new node has a new name, and neither has clauses.
    have hnew : first ≤ (ρ q).index := by
      refine Nat.le_of_not_lt fun hlt => hq ?_
      rwa [hinj (hfix _ hlt)] at hlt
    rw [(h q).1 (by omega), (h (ρ q)).1 hnew]
    rfl

end Ledger.ClausesOld

namespace Layout

variable {L : Layout} {config : Config} {b : Ledger}

/-- All that is recorded on the way is of before. -/
theorem Tells.clausesOld (h : L.Tells config i a events b) (ha : a.ClausesOld L.nodeCount)
    (hevents : ∀ e ∈ events, e.RecordsOld L.nodeCount) : b.ClausesOld L.nodeCount := by
  induction h with
  | nil => exact ha
  | own _ _ ih =>
    obtain ⟨he, hrest⟩ := List.forall_mem_cons.mp hevents
    exact ih (ha.apply he) hrest
  | again _ _ _ ih => exact ih ha (List.forall_mem_cons.mp hevents).2
  | first hj _ hlowered _ _ ih ih' =>
    have hrecords := hlowered.recordsOld fun q hq => kids_lt hj hq
    exact ih' (ih ha hrecords) (List.forall_mem_cons.mp hevents).2

/-- Before lowering, no clauses have been recorded. -/
theorem clausesOld_start (config : Config) (hraw : L.program.tree.Raw) :
    (L.start config).ledger.ClausesOld L.nodeCount := by
  intro q
  have hempty : (L.start config).ledger.clauses q = {} := (hraw q).clauses_eq
  rw [hempty]
  exact ⟨fun _ => rfl, nofun⟩

end Layout

end ScriptEngine
