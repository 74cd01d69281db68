import ScriptEngine.Proofs.KeptNodes

/-!
# Depths along the code

The code of a forest is written in postorder. `Forest.Flows` says that the number of with scopes
fits along the way: it starts with one depth and falls out at the end with another, each jump leads
to a target of its own depth, and whatever follows a jump without return may have any depth. Depths
of targets and of the ends of finally blocks are given; `Forest.Within` says that they are those of
a forest.
-/

namespace ScriptEngine

open Forest Token Node

variable {id stop : NodeId} {l : Node} {kids f g front : Forest} {w w' depth : Nat}
  {inner : List Scope} {continueTo : Option NodeId} {depths : Depths} {labels : List LabelNode}

/-- The depths at which targets and the ends of finally blocks stand. -/
structure Depths where
  target : NodeId → Nat → Prop
  back : NodeId → Nat → Prop

/-- What writing a node makes of the depth. -/
def Node.Steps (depths : Depths) (id : NodeId) (l : Node) (w w' : Nat) : Prop :=
  match l.kind with
  | .target => depths.target id w ∧ w = w'
  | .enterWith => w' = w + 1
  | .leaveWith => w = w' + 1
  | .goto => ∃ target, l.target? = some target ∧ depths.target target w
  | .ifEq | .ifNe | .jsr => (∃ target, l.target? = some target ∧ depths.target target w) ∧ w = w'
  | .retsub => depths.back id w
  | .ret | .returnPopv | .throw => True
  | _ => w = w'

/-- Kinds of nodes that do not care for the depth. -/
def Token.isFlat : Token → Bool
  | .target | .enterWith | .leaveWith | .goto | .ifEq | .ifNe | .jsr | .retsub | .function => false
  | _ => true

/-- A flat node leaves the depth as it is. -/
theorem Node.steps_flat (h : l.kind.isFlat) : l.Steps depths id w w := by
  unfold Steps
  split <;> simp_all [isFlat]

private theorem Node.steps_branch {target : NodeId} (h : l.kind.isBranch)
    (htarget : l.target? = some target) (hmark : depths.target target w) :
    l.Steps depths id w w := by
  unfold Steps
  split <;> simp_all [isBranch]

/-- A step that ends in a jump without return may be followed by anything. -/
theorem Node.steps_goto {target : NodeId} (w' : Nat) (h : l.kind = .goto)
    (htarget : l.target? = some target) (hmark : depths.target target w) :
    l.Steps depths id w w' := by
  simp [Steps, h, htarget, hmark]

private theorem Node.steps_return (w' : Nat) (h : l.kind = .ret ∨ l.kind = .returnPopv) :
    l.Steps depths id w w' := by
  rcases h with h | h <;> simp [Steps, h]

/-- A jump leads to a target of the depth in front of it. -/
theorem Node.Steps.exists_target (h : l.Steps depths id w w')
    (hbranch : l.kind.isBranch) : ∃ target, l.target? = some target ∧ depths.target target w := by
  unfold Node.Steps at h
  split at h <;> first | exact h | exact h.1 | simp_all [isBranch]

namespace Forest

/-- A sibling has a kind. -/
def HasRoot (kind : Token) : Forest → NodeId → Prop
  | .nil, _ => False
  | .cons id l _ rest, q => (l.kind = kind ∧ id = q) ∨ rest.HasRoot kind q

/-- There is a try whose finally block begins at a target and ends at a node. -/
def Subroutine : Forest → NodeId → NodeId → Prop
  | .nil, _, _ => False
  | .cons _ l kids rest, entry, back =>
    (l.finallyTarget? = some entry ∧ kids.HasRoot .retsub back) ∨ kids.Subroutine entry back ∨
      rest.Subroutine entry back

/-- The depth fits along the code of the forest, from one depth to another. -/
def Flows (depths : Depths) : Forest → Nat → Nat → Prop
  | .nil, w, w' => w = w'
  | .cons id l kids rest, w, w' =>
    (l.kind = .target ∨ l.kind = .function → kids = .nil) ∧
      ∃ u v, kids.Flows depths w u ∧ l.Steps depths id u v ∧ rest.Flows depths v w'

/-- The depths are those of a forest, and of its finally blocks. -/
structure Within (depths : Depths) (w : Nat) (f : Forest) : Prop where
  target : ∀ target depth, f.Marks w target depth → depths.target target depth
  back : ∀ entry back depth, f.Subroutine entry back → depths.target entry depth →
    depths.back back depth

variable {depths : Depths} {v : Nat}
  {rest : Forest}

@[simp] theorem hasRoot_append {kind : Token} {q : NodeId} :
    (f ++ g).HasRoot kind q ↔ f.HasRoot kind q ∨ g.HasRoot kind q := by
  induction f with
  | nil => simp [HasRoot]
  | cons id l kids rest _ ih => simp [HasRoot, ih, or_assoc]

@[simp] theorem subroutine_append {entry back : NodeId} :
    (f ++ g).Subroutine entry back ↔ f.Subroutine entry back ∨ g.Subroutine entry back := by
  induction f with
  | nil => simp [Subroutine]
  | cons id l kids rest _ ih => simp [Subroutine, ih, or_assoc]

private theorem Within.append (h : (f ++ g).Within depths w) :
    f.Within depths w ∧ g.Within depths w := by
  refine ⟨⟨fun t d hm => h.target t d (by simp [hm]), fun e r d hs => h.back e r d (by simp [hs])⟩,
    fun t d hm => h.target t d (by simp [hm]), fun e r d hs => h.back e r d (by simp [hs])⟩

private theorem Within.cons (h : (Forest.cons id l kids rest).Within depths w) :
    kids.Within depths (if l.kind = .withBody then w + 1 else w) ∧ rest.Within depths w := by
  refine ⟨⟨fun t d hm => h.target t d (.inr (.inl hm)),
    fun e r d hs => h.back e r d (.inr (.inl hs))⟩,
    fun t d hm => h.target t d (.inr (.inr hm)), fun e r d hs => h.back e r d (.inr (.inr hs))⟩

/-- Below most nodes the depth is the same. -/
theorem Within.below (h : (Forest.cons id l kids rest).Within depths w)
    (hkind : l.kind ≠ .withBody) : kids.Within depths w := by
  have := h.cons.1
  rwa [if_neg hkind] at this

private theorem Within.mark (h : (Forest.cons id l kids rest).Within depths w)
    (hkind : l.kind = .target) : depths.target id w := h.target id w (.inl ⟨hkind, rfl, rfl⟩)

/-- One forest after another. -/
theorem Flows.append (hf : f.Flows depths w v) (hg : g.Flows depths v w') :
    (f ++ g).Flows depths w w' := by
  induction f generalizing w with
  | nil =>
    obtain rfl : w = v := hf
    exact hg
  | cons id l kids rest _ ih =>
    obtain ⟨hleaf, u, u', hkids, hstep, hrest⟩ := hf
    exact ⟨hleaf, u, u', hkids, hstep, ih hrest⟩

/-- A node that does not care for the depth. -/
theorem Flows.flat (h : l.kind.isFlat) (hkids : kids.Flows depths w v)
    (hrest : rest.Flows depths v w') : (Forest.cons id l kids rest).Flows depths w w' :=
  ⟨fun hkind => by rcases hkind with hk | hk <;> simp [hk, isFlat] at h, v, v, hkids,
    steps_flat h, hrest⟩

/-- A node without children. -/
theorem Flows.leaf (hstep : l.Steps depths id w v) (hrest : rest.Flows depths v w') :
    (Forest.cons id l .nil rest).Flows depths w w' := ⟨fun _ => rfl, w, v, rfl, hstep, hrest⟩

private theorem Flows.target (hkind : l.kind = .target) (hmark : depths.target id w)
    (hrest : rest.Flows depths w w') : (Forest.cons id l .nil rest).Flows depths w w' :=
  .leaf (by simp [Node.Steps, hkind, hmark]) hrest

end Forest

/-! ## Scopes -/

/-- The scopes around a place have the depths of the place, from the innermost one on. -/
def Depths.Around (depths : Depths) : Nat → List Scope → Prop
  | _, [] => True
  | w, .loop _ stop continueTo :: outer =>
    depths.target stop w ∧ depths.target continueTo w ∧ depths.Around w outer
  | w, .switch _ stop :: outer => depths.target stop w ∧ depths.Around w outer
  | w, .withBody _ _ :: outer => ∃ v, w = v + 1 ∧ depths.Around v outer
  | w, .label _ _ stop continueTo :: outer =>
    depths.target stop w ∧ (∀ target, continueTo = some target → depths.target target w) ∧
      depths.Around w outer
  | w, .guarded _ entry :: outer => depths.target entry w ∧ depths.Around w outer

namespace Depths

variable {depths : Depths} {outer : List Scope}

/-- A jump to a scope has its depth. -/
theorem Around.target {dest : Scope} {isBreak : Bool} {target : NodeId}
    (h : depths.Around w (dest :: outer)) (htarget : dest.target? isBreak = some target) :
    depths.target target w := by
  cases dest with
  | loop node stop continueTo =>
    simp only [Scope.target?, Option.some.injEq] at htarget
    split at htarget
    · exact htarget ▸ h.1
    · exact htarget ▸ h.2.1
  | switch node stop =>
    simp only [Scope.target?, Option.some.injEq] at htarget
    exact htarget ▸ h.1
  | label node name stop continueTo =>
    simp only [Scope.target?] at htarget
    split at htarget
    · exact Option.some.inj htarget ▸ h.1
    · exact h.2.1 target htarget
  | withBody | guarded => simp [Scope.target?] at htarget

/-- The steps out of scopes lead to the depth of the scopes around them. -/
theorem Around.steps (h : depths.Around w (inner ++ outer)) {steps : List (NodeId × Node)}
    (hsteps : steps.map Prod.snd = inner.filterMap Scope.step?) :
    ∃ v, depths.Around v outer ∧ (Forest.leaves steps).Flows depths w v := by
  induction inner generalizing w steps with
  | nil =>
    obtain rfl : steps = [] := by simpa using hsteps
    exact ⟨w, h, rfl⟩
  | cons scope inner ih =>
    cases scope with
    | loop => exact ih h.2.2 hsteps
    | switch => exact ih h.2 hsteps
    | label => exact ih h.2.2 hsteps
    | withBody =>
      obtain ⟨v, rfl, hrest⟩ := h
      obtain ⟨⟨id, l⟩, rest, rfl⟩ : ∃ step rest, steps = step :: rest :=
        List.exists_cons_of_ne_nil (by rintro rfl; simp [Scope.step?] at hsteps)
      simp only [List.map_cons, List.filterMap_cons, Scope.step?, List.cons.injEq] at hsteps
      obtain ⟨u, hu, hflow⟩ := ih hrest hsteps.2
      exact ⟨u, hu, .leaf (by simp [Node.Steps, hsteps.1, ofKind]) hflow⟩
    | guarded node entry =>
      obtain ⟨⟨id, l⟩, rest, rfl⟩ : ∃ step rest, steps = step :: rest :=
        List.exists_cons_of_ne_nil (by rintro rfl; simp [Scope.step?] at hsteps)
      simp only [List.map_cons, List.filterMap_cons, Scope.step?, List.cons.injEq] at hsteps
      obtain ⟨u, hu, hflow⟩ := ih h.2 hsteps.2
      refine ⟨u, hu, .leaf (steps_branch ?_ ?_ h.1) hflow⟩
      · rw [hsteps.1]
        rfl
      · rw [hsteps.1]
        rfl

/-- The steps out of all scopes. -/
theorem Around.steps_out (h : depths.Around w inner) {steps : List (NodeId × Node)}
    (hsteps : steps.map Prod.snd = inner.filterMap Scope.step?) :
    ∃ v, (Forest.leaves steps).Flows depths w v := by
  rw [← List.append_nil inner] at h
  obtain ⟨v, -, hflow⟩ := h.steps hsteps
  exact ⟨v, hflow⟩

end Depths

/-! ## Lowered forests -/

/-- No node of the forest leaves the scopes around it. -/
def Forest.Stays (f : Forest) : Prop :=
  f.All fun l _ => l.kind ≠ .breakStmt ∧ l.kind ≠ .continueStmt ∧ l.kind ≠ .ret

private theorem Forest.stays_append : (f ++ g).Stays ↔ f.Stays ∧ g.Stays := all_append

namespace Lowered

variable {site : Site} {scopes : List Scope} {form : Form} {past : Bool} {h : Forest}
  {events : List Event} {depths : Depths}

/-- The continue target of a loop has the depth of the loop. -/
theorem continue_mark {target : NodeId}
    (hlow : Lowered site scopes .one w past (.tree id l kids) h events) (hkind : l.kind = .loop)
    (htarget : l.continueTarget? = some target) : site.marks target w := by
  generalize hf : Forest.tree id l kids = f at hlow
  cases hlow with
  | loop _ hdata _ hcontinue hmark =>
    cases hf
    simp only [continueTarget?, jump?, hdata, Option.bind_some, hcontinue,
      Option.some.injEq] at htarget
    exact htarget ▸ hmark
  | plain hk =>
    cases hf
    simp [hkind, isKept, isPlain] at hk
  | jump hk | lost hk =>
    cases hf
    rcases hk with hk | hk <;> simp [hkind] at hk
  | deleteName hk | function hk | var hk | ret hk | retValue hk | retLater hk | switch hk
  | tryCatch hk | tryFinally hk =>
    cases hf
    simp [hkind] at hk

private theorem rootsOf_labelled : (labelForest labels ++ g).rootsOf .loop = g.rootsOf .loop := by
  induction labels with
  | nil => rfl
  | cons a labels ih =>
    rw [labelForest, cons_append, rootsOf, if_neg (by simp), ih]

/-- So it has among statements. -/
theorem continue_marks (hlow : Lowered site scopes form w past f h events) (hform : form = .list)
    (hl : l ∈ f.rootsOf .loop) {target : NodeId} (htarget : l.continueTarget? = some target) :
    site.marks target w := by
  induction hlow with
  | target hkind _ _ ih =>
    rw [rootsOf, if_neg (by simp [hkind])] at hl
    exact ih rfl hl
  | @labelled E inner w past labels id l' kids rest front h stop hr complaints events events'
      hopen hnew hone _ _ ihr =>
    rw [rootsOf_labelled, rootsOf] at hl
    split at hl
    · next hkind =>
      rcases List.mem_cons.mp hl with rfl | hl
      · exact hone.continue_mark hkind htarget
      · exact ihr rfl hl
    · exact ihr rfl hl
  | withScope henter _ hinner _ hleave _ _ _ ihr =>
    rw [rootsOf, if_neg (by simp [henter]), Forest.rootsOf, if_neg (by simp [hinner]),
      rootsOf, if_neg (by simp [hleave])] at hl
    exact ihr rfl hl
  | exit hleave hskip _ _ _ ih =>
    rw [rootsOf, if_neg (by simp [hleave]), Forest.rootsOf, if_neg (by simp [hskip])] at hl
    exact ih rfl hl
  | nil => simp [rootsOf] at hl
  | _ => cases hform

/-- The continue target of a labelled statement has its depth. -/
theorem continueOf_mark {target : NodeId}
    (hlow : Lowered site scopes .one w past (.tree id l kids) h events)
    (htarget : kids.continueOf l = some target) : site.marks target w := by
  unfold continueOf at htarget
  have hblock (hplain : l.kind.isPlain)
      (hsome : (kids.rootsOf .loop).head?.bind Node.continueTarget? = some target) :
      site.marks target w := by
    obtain ⟨n, hn, hnt⟩ := Option.bind_eq_some_iff.mp hsome
    obtain ⟨h', events', -, -, hkids⟩ := hlow.plain_inv (isKept_of_isPlain hplain)
      fun hk => absurd hk (ne_of_test hplain rfl)
    exact hkids.continue_marks rfl (List.mem_of_mem_head? hn) hnt
  split at htarget
  · next hkind => exact hlow.continue_mark hkind htarget
  · next hkind =>
    split at htarget
    · cases htarget
    · exact hblock (by simp [hkind, isPlain]) htarget
  · next hkind =>
    split at htarget
    · cases htarget
    · exact hblock (by simp [hkind, isPlain]) htarget
  · cases htarget

/-- The scopes of labels have the depth of the statement. -/
theorem around_labels (hopen : LabelsOpen stop continueTo scopes labels inner front events)
    (hstop : inner ≠ scopes → depths.target stop w)
    (hcontinue : ∀ target, continueTo = some target → depths.target target w)
    (haround : depths.Around w scopes) : depths.Around w inner := by
  induction hopen with
  | nil => exact haround
  | repeated _ _ ih => exact ih hstop haround
  | fresh _ _ hrest ih =>
    exact ih (fun _ => hstop hrest.ne_tail) ⟨hstop hrest.ne_tail, hcontinue, haround⟩

/-- Labels do not care for the depth. -/
theorem labels_flow (hopen : LabelsOpen stop continueTo scopes labels inner front events) :
    front.Flows depths w w := by
  induction hopen with
  | nil => exact rfl
  | @repeated _ a _ _ _ _ _ _ ih | @fresh _ a _ _ _ _ _ _ _ _ ih =>
    exact .leaf (steps_flat (by simp [withJump, isFlat])) ih

/-- A plain node does not care for the depth, or it is a jump to a target of its depth. -/
theorem steps_lowered (hkind : l.kind.isKept)
    (hjump : l.kind.isBranch → ∃ target, l.target? = some target ∧ site.marks target w)
    (hmarks : ∀ target depth, site.marks target depth → depths.target target depth) :
    (l.lowered site.inFunction kids).Steps depths id w w := by
  by_cases hbranch : l.kind.isBranch
  · obtain ⟨target, htarget, hmark⟩ := hjump hbranch
    have hsame : l.lowered site.inFunction kids = l := by
      unfold lowered
      split <;> simp_all [isBranch]
    rw [hsame]
    exact steps_branch hbranch htarget (hmarks _ _ hmark)
  · refine steps_flat ?_
    rw [kind_lowered]
    split
    · split <;> rfl
    · revert hkind hbranch
      cases l.kind <;> simp [isKept, isPlain, isBranch, isFlat]

/-- Lowered forests keep the depth. What is around them matters only where something leaves it. -/
theorem flows (hlow : Lowered site scopes form w past f h events)
    (hmarks : ∀ target depth, site.marks target depth → depths.target target depth)
    (hwithin : h.Within depths w) (haround : f.Stays ∨ depths.Around w scopes) :
    h.Flows depths w w := by
  induction hlow with
  | @plain E w past id l kids h events hkind hjump _ _ ih =>
    have hne : (l.lowered site.inFunction kids).kind ≠ .withBody :=
      fun hk => ne_of_test hkind rfl (kind_of_lowered hk nofun nofun)
    have hkids := ih (hwithin.below hne) (haround.imp_left fun h => h.2.1)
    have hleaf : ¬ ((l.lowered site.inFunction kids).kind = .target ∨
        (l.lowered site.inFunction kids).kind = .function) := by
      rintro (hk | hk) <;> exact ne_of_test hkind rfl (kind_of_lowered hk nofun nofun)
    exact ⟨fun h => absurd h hleaf, w, w, hkids, steps_lowered hkind hjump hmarks, rfl⟩
  | deleteName hkind hbind hkey =>
    exact .flat (by simp [hkind, isFlat])
      (.leaf (steps_flat (by simp [hbind, isFlat]))
        (.leaf (steps_flat (by simp [hkey, isFlat])) rfl)) rfl
  | function hkind => exact .leaf (by simp [Node.Steps, hkind]) rfl
  | var _ _ _ _ ih =>
    exact .flat rfl (ih (hwithin.below (by simp)) (haround.imp_left fun h => h.2.1)) rfl
  | @ret E w past id l steps hkind _ hsteps _ =>
    -- The steps may end at any depth, for nothing comes behind a return.
    obtain ⟨v, hflow⟩ : ∃ v, (Forest.leaves steps).Flows depths w v := by
      cases past with
      | true => exact (haround.resolve_left fun h => h.1.2.2 hkind).steps_out hsteps
      | false =>
        obtain rfl : steps = [] := by simpa using hsteps
        exact ⟨w, rfl⟩
    exact hflow.append (.leaf (steps_return w (.inl hkind)) rfl)
  | retValue hkind _ _ _ ih =>
    exact ⟨by simp [hkind], _, _,
      ih (hwithin.below (by simp [hkind])) (haround.imp_left fun h => h.2.1),
      steps_return _ (.inl hkind), rfl⟩
  | @retLater E w past id l value hv block store steps back events hkind _ _ _ hsteps _ _ _ _ ih =>
    have haround := haround.resolve_left fun h => h.1.2.2 hkind
    have hkids := hwithin.below (by simp)
    obtain ⟨v, hflow⟩ := haround.steps_out hsteps
    have hvalue := ih (hkids.below (by simp [withLine])) (.inr haround)
    exact .flat rfl (.flat rfl hvalue (hflow.append (.leaf (steps_return w (.inr rfl)) rfl))) rfl
  | @jump E inner dest outer w past id l j name label target steps hkind hdata _ hscopes _ _ htarget
      hsteps _ =>
    have haround := haround.resolve_left fun h => hkind.elim h.1.1 h.1.2.1
    rw [hscopes] at haround
    obtain ⟨v, hv, hflow⟩ := haround.steps hsteps
    exact hflow.append (.leaf (steps_goto w rfl rfl (hv.target htarget)) rfl)
  | lost => exact .leaf (steps_flat rfl) rfl
  | @switch E w past id l data selector clauses hs hc stop events events' hkind _ _ _ _ ihs ihc =>
    have hswitch : (l.withStop (some stop)).kind = .switch := hkind
    have hstop : depths.target stop w := hwithin.cons.2.append.2.mark rfl
    have hin : (selector.Stays ∧ clauses.Stays) ∨ depths.Around w (.switch id stop :: E) :=
      haround.imp (fun h => stays_append.mp h.2.1) fun h => ⟨hstop, h⟩
    exact .flat (by simp [hswitch, isFlat])
      (ihs (hwithin.below (by simp [hswitch])) (hin.imp_left And.left))
      ((ihc hwithin.cons.2.append.1 (hin.imp_left And.right)).append (.target rfl hstop rfl))
  | @loop E w past id l j body hb stop ls continueTo events hkind _ _ _ hmark _
    hstop hstopMark ih =>
    have hkids := hwithin.below (by simp [hkind])
    have hin : body.Stays ∨ depths.Around w (.loop id stop continueTo :: E) :=
      haround.imp (fun h => (stays_append.mp h.2.1).1)
        fun h => ⟨hmarks _ _ hstopMark, hmarks _ _ hmark, h⟩
    exact .flat (by simp [hkind, isFlat])
      ((ih hkids.append.1 hin).append (.target hstop (hmarks _ _ hstopMark) rfl)) rfl
  | tryCatch hkind _ _ _ ih =>
    exact .flat (by simp [hkind, isFlat])
      (ih (hwithin.below (by simp [hkind])) (haround.imp_left fun h => h.2.1)) rfl
  | @tryFinally E w past id l j guarded hg entry le final hf back lb stop ls events events' hkind
      hdata hfinally _ hentry hentryMark _ hback hstop hstopMark ihg ihf =>
    have hkids := hwithin.below (by simp [hkind])
    have hin : guarded.Stays ∨ depths.Around w (.guarded id entry :: E) :=
      haround.imp (fun h => (stays_append.mp h.2.1).1) fun h => ⟨hmarks _ _ hentryMark, h⟩
    have hfinal : final.Stays ∨ depths.Around w E := haround.imp_left fun h => by
      obtain ⟨-, -, -, hthen⟩ := stays_append.mp h.2.1
      exact (stays_append.mp hthen).1
    -- The end of the finally block is at the depth of its entry.
    have hsub : depths.back back w := by
      refine hwithin.back entry back w (.inl ⟨?_, ?_⟩) (hmarks _ _ hentryMark)
      · rw [finallyTarget?_eq hkind hdata, hfinally]
      · simp [Forest.HasRoot, hback]
    exact .flat (by simp [hkind, isFlat]) ((ihg hkids.append.1 hin).append
      (.target hentry (hmarks _ _ hentryMark) ((ihf hkids.append.2.cons.2.append.1 hfinal).append
        (.leaf (by simpa [Node.Steps, hback] using hsub)
          (.target hstop (hmarks _ _ hstopMark) rfl))))) rfl
  | nil | declNil => exact rfl
  | target hkind hmark _ ih =>
    exact .target hkind (hmarks _ _ hmark) (ih hwithin.cons.2 (haround.imp_left fun h => h.2.2))
  | @labelled E inner w past labels id l kids rest front h stop hr complaints events events'
      hopen _ hone _ iho ihr =>
    have hrest := hwithin.append.2.append.2
    have hstop : inner ≠ E → depths.target stop w := fun hne => by
      rw [if_neg hne] at hrest
      exact hrest.append.1.mark rfl
    -- Labels share the depth of their statement.
    have hin (haround : depths.Around w E) : depths.Around w inner :=
      around_labels hopen hstop (fun target ht => hmarks _ _ (hone.continueOf_mark ht)) haround
    have hstays (h : (labelForest labels ++ .cons id l kids rest).Stays) :
        (Forest.tree id l kids).Stays ∧ rest.Stays := by
      obtain ⟨-, hl, hkids, hrest⟩ := stays_append.mp h
      exact ⟨⟨hl, hkids, trivial⟩, hrest⟩
    refine (labels_flow hopen).append ((iho hwithin.append.2.append.1 (haround.imp
      (fun h => (hstays h).1) hin)).append (Forest.Flows.append ?_
      (ihr hrest.append.2 (haround.imp_left fun h => (hstays h).2))))
    split
    · exact rfl
    · next hne => exact .target rfl (hstop hne) rfl
  | @withScope E w past enter le object ho inner li body hb leave lv rest hr events events' events''
      henter _ hinner _ hleave _ iho ihb ihr =>
    -- The body is one deeper, from where it is entered to where it is left.
    have hbody := hwithin.cons.2.cons.1
    rw [if_pos hinner] at hbody
    refine ⟨by simp [henter], w, w + 1, iho (hwithin.below (by simp [henter]))
      (haround.imp_left fun h => h.2.1), by simp [Node.Steps, henter], ?_⟩
    refine .flat (by simp [hinner, isFlat])
      (ihb hbody (haround.imp (fun h => h.2.2.2.1) fun h => ⟨_, rfl, h⟩)) ?_
    exact .leaf (by simp [Node.Steps, hleave])
      (ihr hwithin.cons.2.cons.2.cons.2 (haround.imp_left fun h => h.2.2.2.2.2.2))
  | @exit E w past leave lv skip lg target rest hr events hleave hskip htarget hmark _ ih =>
    exact .leaf (v := w) (by simp [Node.Steps, hleave])
      (.leaf (steps_goto (w + 1) hskip htarget (hmarks _ _ hmark))
        (ih hwithin.cons.2.cons.2 (haround.imp_left fun h => h.2.2.2.2)))
  | decl _ _ ih => exact ih hwithin (haround.imp_left fun h => h.2.2)
  | declInit _ _ _ _ _ ihi ihr =>
    have hinit := (hwithin.below (by simp [withLine])).below (by simp)
    exact .flat rfl (.flat rfl (.leaf (steps_flat rfl)
      (ihi hinit.cons.2 (haround.imp_left fun h => h.2.1))) rfl)
      (ihr hwithin.cons.2 (haround.imp_left fun h => h.2.2))

private theorem not_marks_labelForest {target : NodeId} :
    ¬ (labelForest labels).Marks w target depth := by
  induction labels with
  | nil => exact id
  | cons a labels ih =>
    simp [labelForest, ih]

/-- Targets keep their depths. -/
theorem marks (hlow : Lowered site scopes form w past f h events) {target : NodeId}
    (hmark : f.Marks w target depth) : h.Marks w target depth := by
  induction hlow with
  | @plain E w past id l kids h events hkind _ _ _ ih =>
    have hne (m : Token) (hm : m.isKept = false) : l.kind ≠ m := ne_of_test hkind hm
    have hne' : (l.lowered site.inFunction kids).kind ≠ .withBody :=
      fun hk => hne _ rfl (kind_of_lowered hk nofun nofun)
    simp only [marks_cons, hne .target rfl, hne .withBody rfl, hne', false_and, false_or,
      if_false, marks_nil, or_false] at hmark ⊢
    exact .inr (ih hmark)
  | function | deleteName => exact hmark
  | var hkind _ _ _ ih =>
    simp only [marks_cons, marks_nil, hkind, or_false, reduceCtorEq, false_and,
      false_or, if_false] at hmark
    exact .inr (.inl (ih hmark))
  | ret => exact marks_append.mpr (.inr hmark)
  | retValue hkind _ _ _ ih =>
    simp only [marks_cons, marks_nil, hkind, or_false, reduceCtorEq, false_and,
      false_or, if_false] at hmark ⊢
    exact ih hmark
  | retLater hkind _ _ _ _ _ _ _ _ ih =>
    simp only [marks_cons, marks_nil, hkind, or_false, reduceCtorEq, false_and,
      false_or, if_false] at hmark
    exact .inr (.inl (.inr (.inl (ih hmark))))
  | jump hkind _ hname | lost hkind _ hname =>
    cases hname with
    | none => rcases hkind with hk | hk <;> simp [hk] at hmark
    | name hn => rcases hkind with hk | hk <;> simp [hk, hn] at hmark
  | switch hkind _ _ _ _ ihs ihc =>
    simp only [marks_cons, marks_append, marks_nil, hkind, or_false,
      reduceCtorEq, false_and, false_or, if_false, withStop] at hmark ⊢
    exact hmark.imp ihs fun h => .inl (ihc h)
  | loop hkind _ _ _ _ _ _ _ ih =>
    simp only [marks_cons, marks_append, marks_nil, hkind, or_false,
      reduceCtorEq, false_and, false_or, if_false] at hmark ⊢
    exact hmark.imp_left ih
  | tryCatch hkind _ _ _ ih =>
    simp only [marks_cons, marks_nil, hkind, or_false, reduceCtorEq, false_and,
      false_or, if_false] at hmark ⊢
    exact ih hmark
  | tryFinally hkind _ _ _ _ _ _ _ _ _ ihg ihf =>
    simp only [marks_cons, marks_append, marks_nil, hkind, or_false,
      reduceCtorEq, false_and, false_or, if_false] at hmark ⊢
    exact hmark.imp ihg (Or.imp_right (Or.imp_left ihf))
  | nil | declNil => exact hmark
  | target _ _ _ ih =>
    simp only [marks_cons, marks_nil, false_or] at hmark ⊢
    exact hmark.imp_right ih
  | @labelled E inner w past labels id l kids rest front h stop hr complaints events events'
      _ _ _ _ iho ihr =>
    have hsplit : Forest.cons id l kids rest = .tree id l kids ++ rest := rfl
    simp only [hsplit, marks_append] at hmark ⊢
    rcases hmark with hmark | hmark | hmark
    · exact absurd hmark not_marks_labelForest
    · exact .inr (.inl (iho hmark))
    · exact .inr (.inr (.inr (ihr hmark)))
  | withScope henter _ hinner _ hleave _ iho ihb ihr =>
    simp only [marks_cons, marks_nil, henter, hinner, hleave, reduceCtorEq, false_and,
      false_or, if_false, if_true] at hmark ⊢
    exact hmark.imp iho (Or.imp ihb ihr)
  | exit hleave hskip _ _ _ ih =>
    simp only [marks_cons, marks_nil, hleave, hskip, reduceCtorEq, false_and,
      false_or] at hmark ⊢
    exact ih hmark
  | decl hkind _ ih =>
    simp only [marks_cons, marks_nil, hkind, reduceCtorEq, false_and,
      false_or] at hmark
    exact ih hmark
  | declInit hkind _ _ _ _ ihi ihr =>
    simp only [marks_cons, hkind, reduceCtorEq, false_and, false_or, if_false] at hmark
    rcases hmark with hmark | hmark
    · exact .inr (.inl (.inr (.inl (.inr (.inr (ihi hmark))))))
    · exact .inr (.inr (ihr hmark))

end Lowered

end ScriptEngine
