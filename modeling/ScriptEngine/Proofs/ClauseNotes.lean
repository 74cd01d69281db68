import ScriptEngine.Proofs.BodyNotes
import ScriptEngine.Proofs.Places

/-!
# Which clauses a switch records

A clause is recorded with the innermost switch that is open when lowering comes to it, so what a
switch records depends on which scopes are open at that time. Read off the program as it was built,
it is no more than the clauses directly below the switch, in their order: clauses stand nowhere
else, and lowering one body never touches the switches of another.
-/

namespace ScriptEngine

open List

/-! ## Recording clauses -/

/-- Records clauses one after the other, each given with whether it is a case. -/
def SwitchData.recordAll (data : SwitchData) (clauses : List (Bool × NodeId)) : SwitchData :=
  clauses.foldl (fun data clause => data.record clause.1 clause.2) data

/-- All cases are recorded in their order, but the last default only. -/
theorem SwitchData.recordAll_eq (data : SwitchData) (clauses : List (Bool × NodeId)) :
    data.recordAll clauses =
      { data with
        cases := data.cases ++ (clauses.filter (·.1)).map Prod.snd
        fallback := ((clauses.filter (!·.1)).map Prod.snd).getLast?.or data.fallback } := by
  induction clauses generalizing data with
  | nil => simp [recordAll]
  | cons clause clauses ih =>
    obtain ⟨isCase, node⟩ := clause
    have hstep : data.recordAll ((isCase, node) :: clauses) =
        (data.record isCase node).recordAll clauses := rfl
    rw [hstep, ih]
    cases isCase with
    | true => simp [record]
    | false =>
      cases hlast : ((clauses.filter (!·.1)).map Prod.snd).getLast? <;>
        simp [record, getLast?_cons, hlast]

/-- What a switch has recorded is among the clauses that it was given. -/
theorem SwitchData.mem_of_recordAll {clauses : List (Bool × NodeId)} {c : NodeId}
    (h : c ∈ (recordAll {} clauses).cases ∨ (recordAll {} clauses).fallback = some c) :
    ∃ isCase, (isCase, c) ∈ clauses := by
  rw [recordAll_eq] at h
  simp only [nil_append, Option.or_none] at h
  have hin : ∃ keep : Bool × NodeId → Bool, c ∈ (clauses.filter keep).map Prod.snd :=
    h.elim (fun h => ⟨_, h⟩) fun h => ⟨_, mem_of_getLast? h⟩
  obtain ⟨_, hin⟩ := hin
  obtain ⟨clause, hclause, rfl⟩ := mem_map.mp hin
  exact ⟨clause.1, (mem_filter.mp hclause).1⟩

/-- The clause that an event is for a switch. -/
def Event.clauseOf? (switch : NodeId) : Event → Option (Bool × NodeId)
  | .clause switch' isCase node => if switch' = switch then some (isCase, node) else none
  | _ => none

/-- Clauses are noted. -/
theorem Event.filterMap_clauseOf? (switch : NodeId) (events : List Event) :
    (events.filter Event.isNote).filterMap (Event.clauseOf? switch) =
      events.filterMap (Event.clauseOf? switch) := by
  rw [filterMap_filter]
  refine congrArg (events.filterMap ·) (funext fun e => ?_)
  cases e <;> rfl

/-! ## Reading clauses -/

/-- The clauses among siblings, each with whether it is a case. -/
def Forest.clauses : Forest → List (Bool × NodeId)
  | .nil => []
  | .cons id l _ rest =>
    if l.kind.isClause then (decide (l.kind = .switchCase), id) :: rest.clauses else rest.clauses

namespace Forest

private theorem mem_roots_of_mem_clauses {f : Forest} {clause : Bool × NodeId}
    (h : clause ∈ f.clauses) : clause.2 ∈ f.roots := by
  induction f with
  | nil => cases h
  | cons id l kids rest _ ih =>
    rw [clauses] at h
    split at h
    · rcases mem_cons.mp h with rfl | h
      · simp
      · simp [ih h]
    · simp [ih h]

variable {limits : Limits} {head tail : Token → Bool} {f kids rest : Forest} {site : Site}
  {c : Surroundings} {id s : NodeId} {l : Node}

/-- Among nodes that need no switch around them there is no clause. -/
theorem Placed.clauses_eq_nil (h : f.Placed limits Token.isFree Token.isFree) : f.clauses = [] := by
  induction f with
  | nil => rfl
  | cons id l kids rest _ ih =>
    have hfree : l.kind.isClause = false := by simpa [Token.isFree] using h.1
    rw [clauses, hfree, ih h.2.2.2]
    rfl

/-- There are clauses directly below a switch only. -/
theorem Placed.clauses_below (h : (Forest.cons id l kids rest).Placed limits head tail)
    (hkind : l.kind ≠ .switch) : kids.clauses = [] := by
  have hkids := h.2.2.1
  rw [Token.headBelow, Token.tailBelow] at hkids
  split at hkids
  · exact hkids.clauses_eq_nil
  · exact Placed.clauses_eq_nil (.free (by simpa [hkind] using hkids))

/-- The clause that is noted for a switch at a node. -/
theorem filterMap_notes_node : (site.notes c id l kids).filterMap (Event.clauseOf? s) =
    if c.switch = some s ∧ l.kind.isClause then [(decide (l.kind = .switchCase), id)] else [] := by
  have hclause (isCase : Bool) : (c.switch.toList.map (.clause · isCase id)).filterMap
      (Event.clauseOf? s) = if c.switch = some s then [(isCase, id)] else [] := by
    cases c.switch with
    | none => rfl
    | some s' => by_cases hs : s' = s <;> simp [Event.clauseOf?, hs]
  by_cases hkind : l.kind.isFree
  · have hnone : l.kind.isClause = false := by simpa [Token.isFree] using hkind
    rw [hnone, if_neg (by simp), filterMap_eq_nil_iff]
    intro e he
    rcases Site.mem_notes_of_isFree hkind he with rfl | ⟨k, rfl⟩ <;> rfl
  · have hclauses : l.kind = .switchCase ∨ l.kind = .switchDefault := by
      revert hkind
      unfold Token.isFree Token.isClause
      split <;> simp_all
    rcases hclauses with hk | hk <;> simp [Site.notes, hk, hclause, Token.isClause]

/-- The clauses that are noted for a switch which is no node of the forest are among its roots. -/
theorem filterMap_notes (h : f.Placed limits head tail) (hs : s ∉ f.ids) :
    (f.notes site c).filterMap (Event.clauseOf? s) =
      if c.switch = some s then f.clauses else [] := by
  induction f generalizing c head tail with
  | nil => simp [clauses]
  | cons id l kids rest ihk ihr =>
    simp only [ids_cons, mem_cons, mem_append, not_or] at hs
    have hbelow : (kids.notes site (c.below id l)).filterMap (Event.clauseOf? s) = [] := by
      rw [ihk h.2.2.1 hs.2.1]
      by_cases hkind : l.kind = .switch
      · have hne : (c.below id l).switch ≠ some s := by
          simpa [Surroundings.below, hkind] using fun he => hs.1 he.symm
        rw [if_neg hne]
      · rw [h.clauses_below hkind, ite_self]
    rw [notes_cons, filterMap_append, filterMap_append, filterMap_notes_node, hbelow,
      ihr h.2.2.2 hs.2.2, clauses]
    by_cases hswitch : c.switch = some s <;> by_cases hkind : l.kind.isClause <;>
      simp [hswitch, hkind]

/-- The clauses that are noted for a switch are those below it. -/
theorem filterMap_notes_place {outer : List Unwinding} {entry : Option NodeId} {place : Place}
    (h : f.Placed limits head tail) (hnodup : f.ids.Nodup) (hin : place ∈ f.places outer entry)
    (hc : c.switch ≠ some place.node) :
    (f.notes site c).filterMap (Event.clauseOf? place.node) =
      if place.label.kind = .switch then place.kids.clauses else [] := by
  induction f generalizing c head tail outer entry with
  | nil => cases hin
  | cons id l kids rest ihk ihr =>
    rw [ids_cons, nodup_cons, mem_append, not_or, nodup_append] at hnodup
    obtain ⟨⟨hid, hid'⟩, hkids, hrest, hapart⟩ := hnodup
    rw [places, mem_cons, mem_append] at hin
    have hmem {f : Forest} {outer : List Unwinding} {entry : Option NodeId}
        (hin : place ∈ f.places outer entry) : place.node ∈ f.ids := by
      rw [← map_places f outer entry]
      exact mem_map_of_mem hin
    -- Inside another switch, only that one takes clauses.
    have hbelow (hne : id ≠ place.node) : (c.below id l).switch ≠ some place.node := by
      unfold Surroundings.below
      dsimp only
      split
      · simpa using hne
      · exact hc
    have hown : (site.notes c id l kids).filterMap (Event.clauseOf? place.node) = [] := by
      rw [filterMap_notes_node, if_neg fun hand => hc hand.1]
    rw [notes_cons, List.filterMap_append, List.filterMap_append, hown, List.nil_append]
    rcases hin with rfl | hin | hin
    · rw [filterMap_notes h.2.2.1 hid, filterMap_notes h.2.2.2 hid', if_neg hc, List.append_nil]
      by_cases hkind : l.kind = .switch
      · simp [Surroundings.below, hkind]
      · simp [h.clauses_below hkind, hkind]
    · have hin' := hmem hin
      rw [ihk h.2.2.1 hkids hin (hbelow fun he => hid (he ▸ hin')),
        filterMap_notes h.2.2.2 fun hr => hapart _ hin' _ hr rfl, if_neg hc, List.append_nil]
    · have hin' := hmem hin
      rw [ihr h.2.2.2 hrest hin hc, filterMap_notes h.2.2.1 fun hk => hapart _ hk _ hin' rfl,
        if_neg (hbelow fun he => hid' (he ▸ hin')), List.nil_append]

end Forest

/-! ## Ledgers -/

private theorem Ledger.clauses_apply {a : Ledger} {i : BodyId} {e : Event} {s : NodeId} :
    (a.apply i e).clauses s = (a.clauses s).recordAll (e.clauseOf? s).toList := by
  cases e with
  | complaint | activation | attempt | guard | receiver | function => rfl
  | clause switch isCase node =>
    by_cases hs : switch = s
    · subst hs
      simp [Ledger.apply, Event.clauseOf?, SwitchData.recordAll]
    · simp [Ledger.apply, Event.clauseOf?, SwitchData.recordAll, hs,
        Function.update_of_ne (Ne.symm hs)]

private theorem SwitchData.recordAll_append (data : SwitchData)
    (clauses clauses' : List (Bool × NodeId)) :
    data.recordAll (clauses ++ clauses') = (data.recordAll clauses).recordAll clauses' :=
  foldl_append

namespace Layout

variable {L : Layout} {config : Config} {i owner : BodyId} {a b : Ledger} {events : List Event}
  {s : NodeId} {recorded : List (Bool × NodeId)}

/-- Clauses are recorded with a switch in one body only. -/
def RecordsIn (L : Layout) (config : Config) (s : NodeId) (owner : BodyId)
    (recorded : List (Bool × NodeId)) : Prop :=
  ∀ k h inside, k.index < L.size →
    Lowered (L.site config k) [] .list 0 false (L.kids k) h inside →
      inside.filterMap (Event.clauseOf? s) = if k = owner then recorded else []

/-- Unless the body of a switch is taken up meanwhile, other bodies record nothing with it. -/
theorem Tells.clauses_apart (hrecords : L.RecordsIn config s owner recorded)
    (h : L.Tells config i a events b) (hwaits : a.Waits owner → b.Waits owner) :
    b.clauses s = (a.clauses s).recordAll (events.filterMap (Event.clauseOf? s)) := by
  induction h with
  | nil => rfl
  | @own i a e rest b _ _ ih =>
    have hcons : (e :: rest).filterMap (Event.clauseOf? s) =
        (e.clauseOf? s).toList ++ rest.filterMap (Event.clauseOf? s) := by
      cases he : e.clauseOf? s <;> simp [he]
    rw [ih (by rwa [Ledger.Waits, Ledger.started_apply]), Ledger.clauses_apply, hcons,
      SwitchData.recordAll_append]
  | again _ _ _ ih => exact ih hwaits
  | @first i a k h inside c rest b hk hfirst hlowered hinside hrest ih ih' =>
    have hother : inside.filterMap (Event.clauseOf? s) = [] := by
      rw [hrecords k h inside hk hlowered, if_neg]
      rintro rfl
      exact (waits_start (hinside.waits (hrest.waits (hwaits hfirst)))).2 rfl
    have hc : c.clauses s = a.clauses s := by
      rw [ih fun hs => hrest.waits (hwaits (waits_start hs).1), hother]
      rfl
    rw [ih' fun hs => hwaits (waits_start (hinside.waits hs)).1]
    show (c.clauses s).recordAll _ = _
    rw [hc]
    rfl

/-- The clauses of a switch are recorded when its body is taken up. -/
theorem Tells.clauses_eq (hrecords : L.RecordsIn config s owner recorded)
    (h : L.Tells config i a events b) (hwaits : a.Waits owner)
    (hnone : events.filterMap (Event.clauseOf? s) = []) (hb : ¬ b.Waits owner) :
    b.clauses s = (a.clauses s).recordAll recorded := by
  induction h with
  | nil => exact absurd hwaits hb
  | @own i a e rest b _ _ ih =>
    obtain ⟨he, hrest⟩ : e.clauseOf? s = none ∧ rest.filterMap (Event.clauseOf? s) = [] := by
      cases he : e.clauseOf? s <;> simp_all
    rw [ih (by rwa [Ledger.Waits, Ledger.started_apply]) hrest hb, Ledger.clauses_apply, he]
    rfl
  | again _ _ _ ih => exact ih hwaits hnone hb
  | @first i a k h inside c rest b hk hfirst hlowered hinside hrest ih ih' =>
    have hnone' : rest.filterMap (Event.clauseOf? s) = [] := hnone
    have hmade := hrecords k h inside hk hlowered
    -- What happens inside before the owner is taken up, and afterwards, records nothing.
    have hbefore (hc : (a.start k).Waits owner → c.Waits owner) : c.clauses s =
        (a.clauses s).recordAll (if k = owner then recorded else []) := by
      rw [hinside.clauses_apart hrecords hc, hmade]
      rfl
    have hafter (hc : ¬ c.Waits owner) : b.clauses s = c.clauses s := by
      rw [hrest.clauses_apart hrecords fun hs => absurd hs hc, hnone']
      rfl
    by_cases howner : k = owner
    · have htaken : ¬ (a.start k).Waits owner := fun hs => (waits_start hs).2 howner.symm
      rw [hafter fun hc => htaken (hinside.waits hc), hbefore fun hs => absurd hs htaken,
        if_pos howner]
    · rw [if_neg howner] at hmade hbefore
      by_cases hc : c.Waits owner
      · rw [ih' hc hnone' hb]
        show (c.clauses s).recordAll _ = _
        rw [hbefore fun _ => hc]
        rfl
      · rw [hafter hc]
        exact ih (waits_start_iff.mpr ⟨hwaits, Ne.symm howner⟩) hmade hc

/-! ## Programs -/

section

variable {j : BodyId} {place : ScriptEngine.Place}

private theorem clauseOf?_function : ((List.range L.size).map fun n => Event.function ⟨n⟩).filterMap
    (Event.clauseOf? s) = [] := by
  simp [Event.clauseOf?]

/-- A body records nothing with a switch that is not in it. -/
theorem filterMap_clauseOf?_body (hframed : L.program.Framed []) {h : Forest}
    (hj : j.index < L.size) (hlow : Lowered (L.site config j) [] .list 0 false (L.kids j) h events)
    (hs : s ∉ (L.kids j).ids) : events.filterMap (Event.clauseOf? s) = [] := by
  rw [← Event.filterMap_clauseOf?, notes_body hframed hj hlow,
    Forest.filterMap_notes (hframed.placed hj) (by rwa [L.statements_eq hj]), if_neg]
  simp [Program.surroundings]

/-- When all bodies have been lowered, a switch has recorded the clauses below it. -/
theorem clauses_place (hframed : L.program.Framed []) (h : L.TellsAll config b)
    (hj : j.index < L.size) (hin : place ∈ (L.program.statements j).places [] none) :
    b.clauses place.node = SwitchData.recordAll {}
      (if place.label.kind = .switch then place.kids.clauses else []) := by
  have hmem : place.node ∈ (L.kids j).ids := by
    rw [← L.statements_eq hj, ← Forest.map_places _ [] none]
    exact mem_map_of_mem hin
  have hrecords : L.RecordsIn config place.node j
      (if place.label.kind = .switch then place.kids.clauses else []) := by
    intro k h inside hk hlow
    by_cases hkj : k = j
    · subst hkj
      rw [if_pos rfl, ← Event.filterMap_clauseOf?, notes_body hframed hk hlow]
      refine Forest.filterMap_notes_place (hframed.placed hk) ?_ hin
        (by simp [Program.surroundings])
      rw [L.statements_eq hk]
      exact kids_nodup hk
    · rw [if_neg hkj]
      exact filterMap_clauseOf?_body hframed hk hlow fun hmem' => nodes_disjoint hk hj hkj
        (mem_cons_of_mem _ hmem') (mem_cons_of_mem _ hmem)
  have hempty : (L.start config).ledger.clauses place.node = {} :=
    (hframed.raw place.node).clauses_eq
  rw [h.clauses_eq hrecords (waits_start_ledger.mpr hj) clauseOf?_function
    (h.not_waits (mem_map.mpr ⟨j.index, mem_range.mpr hj, rfl⟩)), hempty]

/-- Nothing is recorded with nodes outside of all bodies. -/
theorem clauses_outside (hframed : L.program.Framed []) (h : L.TellsAll config b)
    (hout : ∀ j : BodyId, j.index < L.size → s ∉ (L.kids j).ids) : b.clauses s = {} := by
  have hrecords : L.RecordsIn config s ⟨L.size⟩ [] := fun k h inside hk hlow => by
    rw [ite_self]
    exact filterMap_clauseOf?_body hframed hk hlow (hout k hk)
  have hempty : (L.start config).ledger.clauses s = {} := (hframed.raw s).clauses_eq
  rw [h.clauses_apart hrecords, clauseOf?_function, hempty]
  · rfl
  · -- There is no such body.
    exact fun hwaits => absurd (waits_start_ledger.mp hwaits) (Nat.lt_irrefl _)

/-- What is recorded with a node was built below it. -/
theorem mem_children_of_recorded (hframed : L.program.Framed []) (h : L.TellsAll config b)
    {c : NodeId} (hc : c ∈ (b.clauses s).cases ∨ (b.clauses s).fallback = some c) :
    c ∈ L.program.tree.children s := by
  by_cases hout : ∀ j : BodyId, j.index < L.size → s ∉ (L.kids j).ids
  · rw [clauses_outside hframed h hout] at hc
    simp at hc
  · simp only [not_forall, not_not] at hout
    obtain ⟨j, hj, hmem⟩ := hout
    rw [← L.statements_eq hj, ← Forest.map_places _ [] none] at hmem
    obtain ⟨place, hin, rfl⟩ := mem_map.mp hmem
    obtain ⟨⟨-, -, hchildren⟩, -⟩ := (L.spells_statements hj).place hin
    rw [hchildren]
    rw [clauses_place hframed h hj hin] at hc
    obtain ⟨isCase, hclause⟩ := SwitchData.mem_of_recordAll hc
    split at hclause
    · exact Forest.mem_roots_of_mem_clauses hclause
    · cases hclause

end

end Layout

end ScriptEngine
