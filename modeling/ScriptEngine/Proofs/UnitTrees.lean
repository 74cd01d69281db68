import ScriptEngine.Proofs.FunctionPositions
import ScriptEngine.Proofs.LoweringSteps
import ScriptEngine.Proofs.WithBalance

/-!
# Trees of units

Functions get their numbers as they begin, so those inside a function come right behind it. A body
lists the functions directly inside it, and its unit holds their units in the same order. Lowering
takes up each body once: on the way through the body around it or, if the node of the function has
been dropped, in the end.
-/

namespace ScriptEngine

open Document

variable {p : Program} {parent : BodyId} {first fuel : Nat} {ns : Document.Nests} {config : Config}
  {fromEvalCode : Bool}

/-! ## Tables -/

/-- The entries of the tables of bodies that have the numbers from `first` on, each behind the body
whose table it is in. -/
def entriesFrom (first : Nat) (os : List Outline) : List (BodyId × BodyId) :=
  (os.zipIdx first).flatMap fun (o, j) => o.functions.map (⟨j⟩, ·)

/-- The bodies with numbers from `first` on that have a parent, each behind its parent. -/
def parentsFrom (first : Nat) (os : List Outline) : List (BodyId × BodyId) :=
  (os.zipIdx first).flatMap fun (o, k) => o.parent.toList.map (·, ⟨k⟩)

namespace Document.Nests

/-- Functions are listed by their parents, and nothing else is. -/
theorem entries_perm (ns : Nests) (parent : BodyId) (first : Nat) :
    ((ns.ids first).map (parent, ·) ++ entriesFrom first (ns.outlines parent first)).Perm
      (parentsFrom first (ns.outlines parent first)) := by
  induction ns generalizing parent first with
  | nil => rfl
  | cons position name line inner rest ihi ihr =>
    have h1 := ihi ⟨first⟩ (first + 1)
    have h2 := ihr parent (first + 1 + inner.headers.length)
    rw [List.perm_iff_count] at h1 h2 ⊢
    intro e
    replace h1 := h1 e
    replace h2 := h2 e
    simp only [ids, outlines, entriesFrom, parentsFrom, List.zipIdx_cons, List.zipIdx_append,
      length_outlines, List.flatMap_cons, List.flatMap_append, List.count_append, List.map_cons,
      List.count_cons, Option.toList_some, List.map_nil, List.count_nil] at h1 h2 ⊢
    omega

/-- Each function has a parent, and it comes before the function. -/
theorem parents_eq (ns : Nests) (parent : BodyId) (first : Nat) (hlt : parent.index < first) :
    (parentsFrom first (ns.outlines parent first)).map Prod.snd =
        (List.range' first ns.headers.length).map BodyId.mk ∧
      ∀ e ∈ parentsFrom first (ns.outlines parent first), e.1.index < e.2.index := by
  induction ns generalizing parent first with
  | nil => exact ⟨rfl, by simp [outlines, parentsFrom]⟩
  | cons position name line inner rest ihi ihr =>
    obtain ⟨hsnd1, hall1⟩ := ihi ⟨first⟩ (first + 1) (Nat.lt_succ_self first)
    obtain ⟨hsnd2, hall2⟩ := ihr parent (first + 1 + inner.headers.length) (by omega)
    have hparents : parentsFrom first ((cons position name line inner rest).outlines parent first) =
        (parent, ⟨first⟩) :: (parentsFrom (first + 1) (inner.outlines ⟨first⟩ (first + 1)) ++
          parentsFrom (first + 1 + inner.headers.length)
            (rest.outlines parent (first + 1 + inner.headers.length))) := by
      simp [parentsFrom, outlines, List.zipIdx_append, length_outlines]
    rw [hparents, List.map_cons, List.map_append, hsnd1, hsnd2, ← List.map_append,
      List.range'_append_1, List.forall_mem_cons, List.forall_mem_append]
    refine ⟨?_, hlt, hall1, hall2⟩
    rw [headers, List.length_cons, List.length_append, List.range'_succ, List.map_cons]

end Document.Nests

/-! ## Units -/

/-- A unit and all units inside it. -/
theorem CompiledUnit.count_eq (u : CompiledUnit) : u.count = (u.nested.map count).sum + 1 := by
  have hsum (counts : List Nat) : counts.foldr (· + ·) 1 = counts.sum + 1 := by
    induction counts with
    | nil => rfl
    | cons n counts ih => rw [List.foldr_cons, ih, List.sum_cons, Nat.add_assoc]
  rw [count, fold, List.attach_map_val (f := fold _), hsum]
  rfl

private theorem Program.functions_of_outlines (before : List Outline) {o : Outline}
    {after : List Outline} (hfirst : before.length = first)
    (h : p.outlines = before ++ o :: after) : (p.body ⟨first⟩).functions = o.functions := by
  have ho : p.outlines[first]? = some o := by
    rw [h, ← hfirst, List.getElem?_append_right (Nat.le_refl _), Nat.sub_self]
    rfl
  rw [outlines, List.getElem?_map, Array.getElem?_toList] at ho
  obtain ⟨x, hx, rfl⟩ := Option.map_eq_some_iff.mp ho
  rw [body, Array.getD_eq_getD_getElem?, hx]
  rfl

/-- Functions side by side, with those inside them, have as many units as bodies. -/
theorem Program.count_units (before after : List Outline) (hfirst : before.length = first)
    (h : p.outlines = before ++ (ns.outlines parent first ++ after)) {us : List CompiledUnit}
    (hunits : List.Forall₂ (fun k u => p.assembleBody config fromEvalCode fuel k = pure u)
      (ns.ids first) us) : (us.map CompiledUnit.count).sum = ns.headers.length := by
  induction ns generalizing parent first before after fuel us with
  | nil =>
    cases hunits
    rfl
  | cons position name line inner rest ihi ihr =>
    cases hunits with
    | @cons _ u _ us hu hus =>
      cases fuel with
      | zero => cases hu
      | succ fuel =>
        rw [Document.Nests.outlines, List.cons_append, List.append_assoc] at h
        have hnested := (exists_of_assembleBody hu).2
        rw [functions_of_outlines before hfirst h] at hnested
        have h1 := ihi (before ++ [_]) _ (by simp [hfirst])
          (h.trans (List.append_assoc before [_] _).symm) hnested
        have h2 := ihr (before ++ _ :: inner.outlines ⟨first⟩ (first + 1)) _
          (by simp [hfirst, Document.Nests.length_outlines]; omega)
          (h.trans (List.append_assoc before (_ :: _) _).symm) hus
        rw [List.map_cons, List.sum_cons, u.count_eq, h1, h2, Document.Nests.headers,
          List.length_cons, List.length_append]
        omega

/-! ## Bodies that are taken up -/

/-- Which bodies have been taken up, and what all bodies record of their places. -/
def LoweringState.tables (s : LoweringState) : Array Bool × List Outline :=
  (s.started, s.program.outlines)

namespace Lowering

/-- A computation takes up bodies on its way from one state to another. It is made of steps that
take up one body each and of others, which leave the tables alone. -/
inductive Takes : {α : Type} → LowerM α → LoweringState → List BodyId → α → LoweringState → Prop
  | other {α m s a s'} (hm : Steady LoweringState.tables m) (hrun : m.run s = .ok (a, s')) :
      Takes (α := α) m s [] a s'
  | start {s s'} (id : BodyId) (hrun : (startBody id).run s = .ok ((), s')) :
      Takes (startBody id) s [id] () s'
  | bind {α β m f s ids a s' ids' b s''} (hm : Takes (α := α) m s ids a s')
      (hf : Takes (α := β) (f a) s' ids' b s'') : Takes (m >>= f) s (ids ++ ids') b s''

variable {α β : Type} {m : LowerM α} {f : α → LowerM β} {s s' : LoweringState}

/-- The bodies that are taken up, each as often as it is, are those that get a mark. -/
structure Marks (s : LoweringState) (ids : List BodyId) (s' : LoweringState) : Prop where
  outlines_eq : s'.program.outlines = s.program.outlines
  size_eq : s'.started.size = s.started.size
  count_eq : ∀ j : BodyId, j.index < s.started.size →
    ids.count j + (s.started.getD j.index false).toNat = (s'.started.getD j.index false).toNat

private theorem Marks.trans {s'' : LoweringState} {ids ids' : List BodyId} (h : Marks s ids s')
    (h' : Marks s' ids' s'') : Marks s (ids ++ ids') s'' := by
  refine ⟨h'.outlines_eq.trans h.outlines_eq, h'.size_eq.trans h.size_eq, fun j hj => ?_⟩
  rw [List.count_append, ← h'.count_eq j (by rwa [h.size_eq]), ← h.count_eq j hj]
  omega

/-- A mark stays. -/
theorem Marks.mono {ids : List BodyId} (h : Marks s ids s') {j : BodyId}
    (hj : j.index < s.started.size) (hs : s.started.getD j.index false = true) :
    s'.started.getD j.index false = true := by
  have hcount := h.count_eq j hj
  rw [hs] at hcount
  cases hs' : s'.started.getD j.index false with
  | true => rfl
  | false =>
    rw [hs'] at hcount
    exact absurd hcount (by simp)

/-- Where the computation comes to an end, it has marked the bodies that it has taken up. -/
def Visits (m : LowerM α) (s : LoweringState) : Prop :=
  Ends m s fun a s' => ∃ ids, Takes m s ids a s' ∧ Marks s ids s'

namespace Visits

private theorem other (hm : Steady LoweringState.tables m) : Visits m s := by
  intro a s' hrun
  obtain ⟨hstarted, houtlines⟩ := Prod.mk.inj (hm s a s' hrun)
  exact ⟨[], .other hm hrun, houtlines, by rw [hstarted], fun j _ => by rw [hstarted]; simp⟩

private theorem bind (hm : Visits m s)
    (hf : ∀ a s', m.run s = .ok (a, s') → Visits (f a) s') : Visits (m >>= f) s := by
  refine Ends.bind (fun a s' hrun => And.intro hrun (hm a s' hrun)) ?_
  rintro a s' ⟨hrun, ids, htakes, hmarks⟩
  refine (hf a s' hrun).mono ?_
  rintro b s'' ⟨ids', htakes', hmarks'⟩
  exact ⟨ids ++ ids', htakes.bind htakes', hmarks.trans hmarks'⟩

/-- A body is taken up that has no mark. -/
theorem start {id : BodyId} (hnot : s.started.getD id.index false = false) :
    Visits (startBody id) s := by
  intro _ s' hrun
  refine ⟨[id], .start id hrun, ?_⟩
  cases hrun
  refine ⟨rfl, Array.size_setIfInBounds .., fun j hj => ?_⟩
  by_cases hid : id = j
  · subst hid
    simp [hnot, hj]
  · have hne : id.index ≠ j.index := fun h => hid (congrArg BodyId.mk h)
    simp [hid, hne, Array.getD_eq_getD_getElem?]

end Visits

/-- Apart from taking up bodies, lowering leaves the tables alone. -/
theorem steady_tables : LowerM.Closed fun _ m => Steady LoweringState.tables m where
  pure a := .pure a
  throw _ := fun _ _ _ hrun => by cases hrun
  lift e := .lift e
  bind := .bind
  read h := .get_bind fun s => h s.program
  openBody := .get_bind fun _ => .pure _
  onTree m := by
    intro s a s' hrun
    obtain ⟨⟨a, t⟩, -, h⟩ := Stepwise.exists_of_bind hrun
    cases h
    rfl
  modifyOpenBody _ := .modify fun _ => rfl
  modifyBody j f hf := .modify fun s => congrArg (s.started, ·)
    ((s.program.outlines_modifyBody j (g := id) fun b =>
      Body.congr_frozen Body.outline (hf b) fun _ => rfl).trans (List.modify_id _ _))
  report _ _ := .modify fun _ => rfl

/-- Bodies are taken up only if they have no mark. -/
theorem visits_closed : LowerM.ClosedOverBodies fun _ m => ∀ s, Visits m s where
  pure _ _ := .other (steady_tables.pure _)
  throw _ _ := .other (steady_tables.throw _)
  lift _ _ := .other (steady_tables.lift _)
  bind hm hf s := .bind (hm s) fun a s' _ => hf a s'
  read h _ := .bind (.other (.get_bind fun _ => .pure _)) fun s s' _ => h s.program s'
  openBody _ := .other steady_tables.openBody
  onTree m _ := .other (steady_tables.onTree m)
  modifyOpenBody f _ := .other (steady_tables.modifyOpenBody f)
  modifyBody id f hf _ := .other (steady_tables.modifyBody id f hf)
  report node error _ := .other (steady_tables.report node error)
  takeUp id g m hg hm s := by
    refine .bind (.other (.get_bind fun _ => .pure _)) fun started s1 hstarted => ?_
    cases hstarted
    cases hnot : s.started.getD id.index false with
    | true => exact hm s
    | false =>
      refine .bind (.other steady_tables.openBody) fun outer s1 hopen => ?_
      cases hopen
      exact .bind (.start hnot) fun _ s' _ => hg _ s'

/-- When its turn has been, a body has a mark. -/
theorem ends_lowerBody (config : Config) (fuel : Nat) (id : BodyId) (s : LoweringState) :
    Ends (lowerBody config fuel id) s fun _ s' =>
      id.index < s.started.size → s'.started.getD id.index false = true := by
  refine Ends.bind (p := fun started s1 => started = s.started.getD id.index false ∧ s1 = s)
    (Ends.get_bind (Ends.pure ⟨rfl, rfl⟩)) fun started s1 h => ?_
  obtain ⟨hstarted, rfl⟩ := h
  cases started with
  | true => exact Ends.pure fun _ => hstarted.symm
  | false =>
    refine Ends.modify_bind ((visits_closed.body (visits_closed.walk config fuel)
      visits_closed.finishBody id _).mono ?_)
    rintro _ s' ⟨ids, -, hmarks⟩ hlt
    exact hmarks.mono (by simpa using hlt) (by simp [hlt])

/-- The bodies are taken up in turn, unless they have been taken up in between. -/
theorem ends_lowerBodies (config : Config) (fuel : Nat) (js : List BodyId) (s : LoweringState) :
    Ends (js.forM (lowerBody config fuel)) s fun a s' => ∃ ids,
      Takes (js.forM (lowerBody config fuel)) s ids a s' ∧ Marks s ids s' ∧
        ∀ j ∈ js, j.index < s.started.size → s'.started.getD j.index false = true := by
  induction js generalizing s with
  | nil =>
    intro a s' hrun
    obtain ⟨ids, htakes, hmarks⟩ := Visits.other (steady_tables.pure ()) a s' hrun
    exact ⟨ids, htakes, hmarks, by simp⟩
  | cons j js ih =>
    refine Ends.bind (fun a s1 hrun => And.intro (visits_closed.lowerBody config fuel j s a s1 hrun)
      (ends_lowerBody config fuel j s a s1 hrun)) ?_
    rintro a s1 ⟨⟨ids, htakes, hmarks⟩, hmarked⟩
    refine (ih s1).mono ?_
    rintro b s' ⟨ids', htakes', hmarks', hall⟩
    refine ⟨ids ++ ids', htakes.bind htakes', hmarks.trans hmarks', ?_⟩
    rintro k (_ | ⟨_, hk⟩) hlt
    · exact hmarks'.mono (by rwa [hmarks.size_eq]) (hmarked hlt)
    · exact hall k hk (by rwa [hmarks.size_eq])

end Lowering

/-- Lowering a program takes up bodies in this order, and makes another program of it. -/
def Program.TakesUp (p : Program) (config : Config) (ids : List BodyId) (p' : Program) : Prop :=
  ∃ s, Lowering.Takes (((List.range p.bodies.size).map BodyId.mk).forM
      (Lowering.lowerBody config (Lowering.walkFuel p)))
    { program := p
      diagnostics := { limit := some config.maxDiagnostics }
      started := Array.replicate p.bodies.size false
      body := { id := .script, inFunction := false } } ids () s ∧ s.program = p'

/-- Each body is taken up once, and its place in the program stays recorded. -/
theorem Program.takesUp_of_lower {p' : Program} {diagnostics : Diagnostics}
    (h : p.lower config = .ok (p', diagnostics)) : p'.outlines = p.outlines ∧
      ∃ ids, p.TakesUp config ids p' ∧ ∀ j : BodyId, j.index < p.bodies.size → ids.count j = 1 := by
  obtain ⟨⟨_, s⟩, hrun, h⟩ := Stepwise.exists_of_bind h
  cases h
  obtain ⟨ids, htakes, hmarks, hall⟩ := Lowering.ends_lowerBodies _ _ _ _ _ _ hrun
  refine ⟨hmarks.outlines_eq, ids, ⟨s, htakes, rfl⟩, fun j hj => ?_⟩
  have hlt : j.index < (Array.replicate p.bodies.size false).size := by simpa using hj
  have hcount := hmarks.count_eq j hlt
  rw [hall j (by simpa using ⟨j.index, hj, rfl⟩) hlt] at hcount
  simpa [hj] using hcount

end ScriptEngine
