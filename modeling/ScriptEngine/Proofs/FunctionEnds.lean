import ScriptEngine.Proofs.Determinism
import ScriptEngine.Proofs.FinallyReturns
import ScriptEngine.Proofs.NormalForm
import ScriptEngine.Proofs.WithBalance

/-!
# The end of functions

The statements of a function end in a return, which the builder adds if it is not there. Lowering
leaves this return in its place, as there is nothing around it to be left. All that can come behind
it is the break target of labels in front of it, and a jump there would have to stand inside the
return. So the code of a function ends in a return, and no jump leads to the end of the code.
-/

namespace ScriptEngine

open Forest

/-! ## Statements -/

namespace Forest

variable {f g kids rest : Forest} {id : NodeId} {l : Node}

private theorem endsInReturn_cons : (Forest.cons id l kids rest).EndsInReturn ↔
    rest = .nil ∧ l.kind = .ret ∨ rest.EndsInReturn := by
  constructor
  · rintro ⟨front, id', l', kids', heq, hkind⟩
    cases front with
    | nil =>
      cases heq
      exact .inl ⟨rfl, hkind⟩
    | cons =>
      cases heq
      exact .inr ⟨_, id', l', kids', rfl, hkind⟩
  · rintro (⟨rfl, hkind⟩ | ⟨front, id', l', kids', rfl, hkind⟩)
    · exact ⟨.nil, id, l, kids, rfl, hkind⟩
    · exact ⟨.cons id l kids front, id', l', kids', rfl, hkind⟩

private theorem not_endsInReturn_nil : ¬ Forest.nil.EndsInReturn := by
  rintro ⟨front, id, l, kids, heq, -⟩
  cases front <;> cases heq

/-- Whatever is in front does not matter. -/
theorem endsInReturn_append :
    (f ++ .cons id l kids rest).EndsInReturn ↔ (Forest.cons id l kids rest).EndsInReturn := by
  induction f with
  | nil => rfl
  | cons id' l' kids' rest' _ ih =>
    rw [cons_append, endsInReturn_cons, ih, or_iff_right]
    rintro ⟨hnil, -⟩
    cases rest' <;> cases hnil

/-- Operands leave no scope. -/
theorem Placed.stays {limits : Limits} (h : f.Placed limits Token.isOperand Token.isOperand) :
    f.Stays := by
  induction f with
  | nil => trivial
  | cons id l kids rest ihk ihr =>
    obtain ⟨hkind, -, hkids, hrest⟩ := h
    rw [Token.headBelow_of_isOperand hkind, Token.tailBelow_of_isOperand hkind] at hkids
    refine ⟨⟨?_, ?_, ?_⟩, ihk hkids, ihr hrest⟩ <;> (intro he; rw [he] at hkind; cases hkind)

end Forest

/-- A return comes last among statements and has been lowered last. If it has labels, their break
target stands behind it, and that is all. -/
inductive LastReturn (site : Site) (E : List Scope) (w : Nat) (past : Bool) : Forest → Forest → Prop
  | intro {front labels id l kids before inner stop continueTo opened made past' events complaints
      events'} (hkind : l.kind = .ret)
      (hnew : inner ≠ E → site.IsNew stop)
      (hfront : Lowered site E .list w past front before events)
      (hopen : LabelsOpen stop continueTo E labels inner opened complaints)
      (hlast : Lowered site inner .one w past' (.tree id l kids) made events') :
      LastReturn site E w past (front ++ (labelForest labels ++ .tree id l kids))
        (before ++ (opened ++ (made ++ if inner = E then .nil else .leaf stop (.ofKind .target))))

section

variable {site : Site} {E : List Scope} {form : Form} {w : Nat} {past past' : Bool} {f h : Forest}
  {events : List Event}

/-- Other statements may stand in front. -/
theorem LastReturn.behind (hlast : LastReturn site E w past f h) (f' h' : Forest)
    (hfront : ∀ {front before events}, Lowered site E .list w past front before events →
      ∃ events', Lowered site E .list w past' (f' ++ front) (h' ++ before) events') :
    LastReturn site E w past' (f' ++ f) (h' ++ h) := by
  obtain ⟨hkind, hnew, hbefore, hopen, hone⟩ := hlast
  obtain ⟨events', hbefore'⟩ := hfront hbefore
  simpa only [append_assoc] using LastReturn.intro hkind hnew hbefore' hopen hone

/-- A return stays as it is where no scope has to be left. -/
theorem Lowered.return_kept {id : NodeId} {l : Node} {kids : Forest}
    (hlow : Lowered site E .one w past (.tree id l kids) h events) (hkind : l.kind = .ret)
    (hsteps : E.filterMap Scope.step? = []) : ∃ value, h = .tree id l value ∧
      (value = .nil ∨ Lowered site E .one w past kids value events) := by
  generalize hf : Forest.tree id l kids = f at hlow
  cases hlow with
  | @ret _ _ _ _ _ steps _ _ hnone =>
    cases hf
    obtain rfl : steps = [] := by simpa [hsteps] using hnone
    exact ⟨.nil, rfl, .inl rfl⟩
  | retValue _ _ _ hvalue =>
    cases hf
    exact ⟨_, rfl, .inr hvalue⟩
  | retLater _ _ hsome => exact absurd hsteps hsome
  | _ =>
    obtain ⟨-, rfl, -⟩ := Forest.cons.inj hf
    simp_all [Token.isKept, Token.isPlain]

/-- The last of the statements is lowered last. -/
theorem Lowered.lastReturn (hlow : Lowered site E form w past f h events) (hform : form = .list)
    (hreturn : f.EndsInReturn) : LastReturn site E w past f h := by
  induction hlow with
  | nil => exact absurd hreturn not_endsInReturn_nil
  | @target E w past id l rest hr events hkind hmark _ ih =>
    refine (ih rfl ?_).behind (.leaf id l) (.leaf id l) fun hfront =>
      ⟨_, .target hkind hmark hfront⟩
    exact (endsInReturn_cons.mp hreturn).resolve_left (by simp [hkind])
  | @labelled E inner w past labels id l kids rest opened made stop hr complaints events events'
      hopen hnew hone hrest _ ihr =>
    rcases endsInReturn_cons.mp (endsInReturn_append.mp hreturn) with ⟨rfl, hkind⟩ | hlast
    · obtain ⟨rfl, -⟩ := hrest.nil_inv
      have hfront : Lowered site E .list w past .nil .nil [] := .nil
      simpa using LastReturn.intro hkind hnew hfront hopen hone
    · have hbehind := (ihr rfl hlast).behind (labelForest labels ++ .tree id l kids)
        (opened ++ (made ++ if inner = E then .nil else .leaf stop (.ofKind .target)))
        fun hfront => ⟨_, by
          simpa [append_assoc] using Lowered.labelled hopen hnew hone hfront⟩
      simpa [append_assoc] using hbehind
  | @withScope E w past enter le object ho inner li body hb leave lv rest hr events events' events''
      henter hobject hinner hbody hleave _ _ _ ihr =>
    simp only [endsInReturn_cons, henter, hinner, hleave, reduceCtorEq, and_false,
      false_or] at hreturn
    exact (ihr rfl hreturn).behind (.cons enter le object (.cons inner li body (.leaf leave lv)))
      (.cons enter le ho (.cons inner li hb (.leaf leave lv))) fun hfront =>
        ⟨_, .withScope henter hobject hinner hbody hleave hfront⟩
  | @exit E w past leave lv skip lg target rest hr events hleave hskip htarget
      hmark _ ih =>
    simp only [endsInReturn_cons, hleave, hskip, reduceCtorEq, and_false, false_or] at hreturn
    exact (ih rfl hreturn).behind (.cons leave lv .nil (.leaf skip lg))
      (.cons leave lv .nil (.leaf skip lg)) fun hfront =>
        ⟨_, .exit hleave hskip htarget hmark hfront⟩
  | _ => cases hform

end

/-! ## Code -/

/-- Some nodes are out of reach. -/
def Depths.avoiding (ids : List NodeId) : Depths where
  target target _ := target ∉ ids
  back _ _ := True

/-- The code of a forest ends in a return. Behind it there are only targets, and no jump leads to
one of them. -/
structure Forest.Returns (f : Forest) (behind : List (NodeId × Node)) : Prop where
  targets : ∀ x ∈ behind, x.2.kind = .target
  exists_return : ∃ front id l value w, f = front ++ (.tree id l value ++ .leaves behind) ∧
    l.kind = .ret ∧ (front ++ value).Flows (.avoiding (behind.map Prod.fst)) w w

private theorem Forest.items_append (f g : Forest) : (f ++ g).items = f.items ++ g.items := by
  induction f with
  | nil => rfl
  | cons id l kids rest _ ih => simp only [cons_append, items, ih, List.append_assoc]

private theorem Forest.items_targets {behind : List (NodeId × Node)}
    (h : ∀ x ∈ behind, x.2.kind = .target) :
    (Forest.leaves behind).items = behind.map fun x => .target x.1 := by
  induction behind with
  | nil => rfl
  | cons x behind ih =>
    simp [leaves, items, h x (by simp), ih fun y hy => h y (by simp [hy])]

/-- The listing of a forest that ends in a return. -/
theorem Forest.Returns.items_eq {f : Forest} {behind : List (NodeId × Node)}
    (h : f.Returns behind) :
    ∃ items o, f.items = items ++ .op o :: behind.map (fun x => .target x.1) ∧ o.kind = .ret ∧
      ∀ o', .op o' ∈ items → ∀ target, o'.jump? = some target → target ∉ behind.map Prod.fst := by
  obtain ⟨front, id, l, value, w, rfl, hkind, hflow⟩ := h.exists_return
  refine ⟨(front ++ value).items, ⟨id, l, value.roots.length - 1⟩, ?_, hkind, ?_⟩
  · rw [items_append, items_append, items_targets h.targets, items_append,
      items_tree (by simp [hkind]) (by simp [hkind]), if_pos (by rw [hkind]; rfl)]
    simp
  · intro o ho target hjump
    obtain ⟨depth, hout⟩ := hflow.target_of_mem_items ho hjump
    exact hout

/-- No jump leads behind the return. -/
theorem place_lt_codeSize {f : Forest} {behind : List (NodeId × Node)} (h : f.Returns behind)
    {o : Op} (ho : .op o ∈ f.items) {target : NodeId} (hjump : o.jump? = some target) {pc : Nat}
    (hplace : (target, pc) ∈ places 0 f.items) : pc < codeSize f.items := by
  obtain ⟨items, o', heq, hkind, hout⟩ := h.items_eq
  have hnot : target ∉ behind.map Prod.fst := by
    rw [heq] at ho
    simp only [List.mem_append, List.mem_cons, Item.op.injEq, List.mem_map, reduceCtorEq, and_false,
      exists_false, or_false] at ho
    rcases ho with ho | rfl
    · exact hout o ho target hjump
    · simp [Op.jump?, hkind, Token.operand] at hjump
  have hsize : codeSize items < codeSize f.items := by simp [heq, codeSize, Op.size]
  rw [heq, places_append, List.mem_append] at hplace
  rcases hplace with hplace | hplace
  · have hle := (bounds_of_mem_places hplace).2
    omega
  · refine absurd ?_ hnot
    have hmem := List.mem_map_of_mem (f := Prod.fst) hplace
    rw [map_fst_places] at hmem
    simpa [Item.target?, Function.comp_def] using hmem

namespace Layout

variable {L : Layout} {config : Config} {s : LoweringState} {j : BodyId} {first : Nat}

/-- The statements of a body still end in a return after lowering. -/
theorem Done.returns (hframed : L.program.Framed []) (hs : L.Sound s) (hd : L.Done config s j first)
    (hj : j.index < L.size) (hreturn : (L.kids j).EndsInReturn) :
    ∃ behind, (s.program.statements j).Returns behind := by
  obtain ⟨h, events, changes, cut, hlow, hslotted⟩ := hd.exists_slotted hs
  have hready := (hlow.ready (L.fits j))
  have hplaced := L.statements_eq hj ▸ hframed.placed hj
  have hold {target : NodeId} {depth : Nat} (hmark : (L.site config j).marks target depth) :
      target.index < (L.site config j).first := kids_lt hj hmark.mem_ids
  generalize L.kids j = f at hlow hplaced hreturn
  have hnodup := hd.statements_nodup hs
  generalize s.program.statements j = k at hslotted hnodup
  obtain @⟨front, labels, id, l, kids, before, inner, stop, continueTo, opened,
      made, past', _, _, _,
    hkind, hnew, hfront, hopen, hlast⟩ := hlow.lastReturn rfl hreturn
  -- Labels are no scopes that have to be left, so the return stays as it is.
  have hsteps : inner.filterMap Scope.step? = [] := by
    rw [Scope.filterMap_step?, hopen.unwindings_eq]
    rfl
  obtain ⟨value, rfl, hvalue⟩ := hlast.return_kept hkind hsteps
  obtain ⟨behind, heq, htargets, hbehind⟩ : ∃ behind : List (NodeId × Node),
      (if inner = [] then .nil else .leaf stop (.ofKind .target)) = Forest.leaves behind ∧
      (∀ x ∈ behind, x.2.kind = .target) ∧ ∀ x ∈ behind, (L.site config j).IsNew x.1 := by
    split
    · exact ⟨[], rfl, by simp, by simp⟩
    · next hne => exact ⟨[(stop, .ofKind .target)], rfl, by simp, by simpa using hnew hne⟩
  rw [heq] at hslotted hready
  obtain ⟨k1, _, _, _, _, _, rfl, hs1, hslotted⟩ := hslotted.append_inv
  obtain ⟨k2, _, _, _, _, _, rfl, hs2, hslotted⟩ := hslotted.append_inv
  obtain ⟨_, _, _, _, _, _, rfl, hslotted, hs4⟩ := hslotted.append_inv
  obtain ⟨_, _, _, _, k3, _, rfl, hs3, hnil⟩ := hslotted.firm_inv (by rw [hkind]; rfl)
  obtain rfl := hs4.leaves_inv fun x hx => by rw [htargets x hx]; rfl
  obtain rfl := hnil.nil_inv.2.2
  obtain ⟨hready1, hready2, ⟨-, hready3, -⟩, -⟩ : _ ∧ _ ∧ _ ∧ _ := by
    simpa only [all_append] using hready
  have hmarks (target : NodeId) (depth : Nat) (hmark : (L.site config j).marks target depth) :
      target ∉ behind.map Prod.fst := by
    intro hin
    obtain ⟨x, hx, rfl⟩ := List.mem_map.mp hin
    exact Nat.not_lt.mpr (hbehind x hx) (hold hmark)
  -- The targets of the rest are other nodes than those behind the return.
  have hwithin {q : NodeId} {changes : List SlotChange} {cut a a' : Forest} {limits : Limits}
      (hslotted : Slotted ((s.program.body j).slotRules L.nodeCount) q changes cut a a')
      (hready : a.All (Node.Ready limits)) (ha : ∀ x ∈ a'.ids, x ∉ behind.map Prod.fst) :
      a.Within (.avoiding (behind.map Prod.fst)) 0 :=
    ⟨fun target depth hmark => ha target (hslotted.marks hready hmark).mem_ids,
      fun _ _ _ _ _ => trivial⟩
  have hapart : ∀ x ∈ k1.ids ++ k3.ids, x ∉ behind.map Prod.fst := by
    intro x hx
    have hids : ((k1 ++ (k2 ++ .tree id l k3)).ids ++ behind.map Prod.fst).Nodup := by
      simpa [ids_leaves] using hnodup
    have hx' : x ∈ (k1 ++ (k2 ++ .tree id l k3)).ids := by
      rcases List.mem_append.mp hx with hx | hx <;> simp [hx]
    exact fun hin => (List.nodup_append.mp hids).2.2 x hx' x hin rfl
  have hflow1 := hs1.flows hready1 (hfront.flows hmarks
    (hwithin hs1 hready1 fun x hx => hapart x (by simp [hx])) (.inr trivial))
  have hflow2 : k2.Flows (.avoiding (behind.map Prod.fst)) 0 0 :=
    hs2.flows hready2 (Lowered.labels_flow hopen)
  have hflow3 : k3.Flows (.avoiding (behind.map Prod.fst)) 0 0 := by
    rcases hvalue with rfl | hvalue
    · rw [hs3.nil_inv.2.2]
      exact rfl
    · have hstays : kids.Stays := by
        rw [placed_append, placed_append] at hplaced
        have hkids := hplaced.2.2.2.2.1
        rw [hkind] at hkids
        exact hkids.stays
      exact hs3.flows hready3 (hvalue.flows hmarks
        (hwithin hs3 hready3 fun x hx => hapart x (by simp [hx])) (.inl hstays))
  refine ⟨behind, htargets, k1 ++ k2, id, l, k3, 0, ?_, hkind, (hflow1.append hflow2).append hflow3⟩
  simp only [append_assoc]

end Layout

private theorem map_snd_standing (offset : Nat) (ws : List Written) :
    (standing offset ws).map Prod.snd = ws := by
  induction ws generalizing offset with
  | nil => rfl
  | cons x ws ih => simp [standing, ih]

/-- The code of a function of a document ends in a return, and all jumps in it lead to places in
front of its end. -/
theorem functions_end_in_return {script : Document.Script} {fallback : Option String} {p : Program}
    (hops : script.usesOperators) (hbuild : Document.build script fallback = .ok (.ok p))
    {config : Config} {fromEvalCode : Bool} {unit : CompiledUnit}
    (hcompile : p.compile config fromEvalCode = .ok (.ok unit)) {path : List Nat} {u : CompiledUnit}
    (hpath : unit.descend? path = some u) (hfunction : u.functionType.isSome) :
    ∃ code, u.instructions? = some code ∧ code.getLast?.map Instruction.op = some .ret ∧
      ∀ i ∈ code, i.op ∈ [.goto, .ifEq, .ifNe, .jsr] →
        ∃ pc : Nat, i.operand = pc ∧ pc < u.code.size := by
  obtain ⟨hframed, hsize⟩ := Document.build_framed hops hbuild
  obtain ⟨L, rfl⟩ := hframed.exists_layout
  obtain ⟨s, hlower, hs, hdone, -⟩ := L.lower_eq config
  obtain ⟨j, hj, ⟨out, nested, hout, rfl⟩, hlisted⟩ :=
    L.exists_of_descend? hframed hsize hlower hs hcompile hpath
  have hd := hdone j hj
  have hreturn : (L.kids j).EndsInReturn := by
    rcases hlisted with rfl | ⟨i, hi, hmem⟩
    · have hscript : (s.program.body .script).isFunction = true := hfunction
      rw [Body.congr_frozen Body.isFunction (hs.body_eq _) fun _ => rfl,
        (hframed.untouched .script hj).isFunction_eq] at hscript
      simp at hscript
    · obtain ⟨l, kids, hst, hends⟩ := (hframed.nested i hi j hmem).returns
      rwa [← L.statements_eq hj, Program.statements_eq hframed.linked hst]
  obtain ⟨behind, hreturns⟩ := hd.returns hframed hs hj hreturn
  obtain ⟨hcoded, -⟩ := hd.coded hs
  obtain ⟨ws, hlists⟩ := hd.exists_lists hs hout
  refine ⟨_, hlists.decode_eq hcoded, ?_, fun i hi hop => ?_⟩
  · obtain ⟨items, o, heq, hkind, -⟩ := hreturns.items_eq
    have hlast : (ws.map Written.op).getLast? = some o := by
      rw [hlists.ops, heq, List.filterMap_append, ops_op, List.filterMap_map]
      simp [Item.op?, Function.comp_def]
    obtain ⟨x, hx, rfl⟩ := Option.map_eq_some_iff.mp (List.getLast?_map.symm.trans hlast)
    rw [← map_snd_standing 0 ws, List.getLast?_map] at hx
    obtain ⟨⟨pc, x⟩, hpc, rfl⟩ := Option.map_eq_some_iff.mp hx
    rw [List.getLast?_map, hpc]
    exact congrArg some hkind
  · obtain ⟨⟨pc, x⟩, hx, rfl⟩ := List.mem_map.mp hi
    have hkind : x.op.kind.operand = .jump := by
      have hop : x.op.kind ∈ [.goto, .ifEq, .ifNe, .jsr] := hop
      simp only [List.mem_cons, List.not_mem_nil, or_false] at hop
      rcases hop with hk | hk | hk | hk <;> rw [hk] <;> rfl
    have hmem := mem_of_standing hx
    obtain ⟨hread, target, htarget, hplace⟩ := hlists.read_jump hcoded hmem hkind pc
    refine ⟨x.operand, hread, ?_⟩
    have hlt := place_lt_codeSize hreturns (mem_items_of_ops hlists.ops hmem)
      (by rw [Op.jump?, if_pos hkind, htarget]) hplace
    exact hlists.size_eq ▸ hlt

/-- A function with a loop and a labelled return. -/
theorem functions_end_in_return_of_loop :
    let script : Document.Script := ⟨none, [.function (.mk "f" [] [
      .whileLoop .null (.breakTo none 2) 2, .labelled "l" (.ret (some .null) 3) 3] 1 4 none)], 4⟩
    ∃ p unit u, script.usesOperators = true ∧ Document.build script none = .ok (.ok p) ∧
      p.compile {} false = .ok (.ok unit) ∧ unit.descend? [0] = some u ∧
      u.functionType.isSome = true ∧ u.code.size = 18 ∧
      ∃ code, u.instructions? = some code ∧ code.getLast?.map Instruction.op = some .ret ∧
        ∀ i ∈ code, i.op ∈ [.goto, .ifEq, .ifNe, .jsr] →
          ∃ pc : Nat, i.operand = pc ∧ pc < u.code.size := by
  intro script
  have hops : script.usesOperators = true := by decide
  have hmade : Document.compilesTo script none {} [0] fun u =>
      u.functionType.isSome && u.code.size = 18 := by
    decide +kernel
  obtain ⟨p, unit, u, hbuild, hcompile, hu, htest⟩ := Document.exists_unit hmade
  simp only [Bool.and_eq_true, decide_eq_true_eq] at htest
  exact ⟨p, unit, u, hops, hbuild, hcompile, hu, htest.1, htest.2,
    functions_end_in_return hops hbuild hcompile hu htest.1⟩

end ScriptEngine
