import ScriptEngine.Proofs.Renaming

/-!
# Lowering is determined

How a node is lowered can be told by its kind, and where the parts below it begin by how many
siblings they have. So two forests that lowering may make of the same one are made in the same way,
and only the nodes that are new differ.
-/

namespace ScriptEngine

open Forest Token

variable {events events' : List Event} {first w : Nat} {ρ : NodeId → NodeId} {site : Site}
  {E E' outer inner' inner : List Scope} {past isBreak : Bool}
  {f g kids rest kids' rest' front a a' b b' h h' : Forest} {id id' stop : NodeId} {l l' : Node}
  {dest : Scope} {form : Form} {labels : List LabelNode} {label : Option String}
  {continueTo : Option NodeId}

/-! ## How forests are lowered -/

namespace Lowered

/-- Nothing is lowered to nothing. -/
theorem nil_inv (hlow : Lowered site E .list w past .nil g events) : g = .nil ∧ events = [] := by
  generalize hf : Forest.nil = f at hlow
  cases hlow with
  | nil => exact ⟨rfl, rfl⟩
  | labelled => exact absurd (congrArg Forest.roots hf) (by simp)
  | target | withScope | exit => cases hf

end Lowered

/-- A statement with the labels in front of it begins with a label or with a single node. -/
theorem labelForest_head (hl : l.kind.isSingle)
    (heq : Forest.cons id' l' kids' rest' = labelForest labels ++ .cons id l kids rest) :
    l'.kind = .label ∨ l'.kind.isSingle := by
  cases labels with
  | nil => exact .inr ((Forest.cons.inj heq).2.1 ▸ hl)
  | cons a labels => exact .inl ((Forest.cons.inj heq).2.1 ▸ a.kind_eq)

/-- Labels in front of a statement can be told from it. -/
theorem labelForest_inj {labels' : List LabelNode} (hl : l.kind ≠ .label)
    (hl' : l'.kind ≠ .label) (heq : labelForest labels ++ .cons id l kids rest =
      labelForest labels' ++ .cons id' l' kids' rest') :
    labels = labels' ∧ id = id' ∧ l = l' ∧ kids = kids' ∧ rest = rest' := by
  induction labels generalizing labels' with
  | nil =>
    cases labels' with
    | nil => simpa [labelForest] using heq
    | cons a labels' =>
      injection heq with _ hnode
      exact absurd (hnode ▸ a.kind_eq) hl
  | cons a labels ih =>
    cases labels' with
    | nil =>
      injection heq with _ hnode
      exact absurd (hnode ▸ a.kind_eq) hl'
    | cons b labels' =>
      injection heq with hid hnode hname hmore
      injection hname with hnameId hnameNode
      obtain ⟨rfl, hsame⟩ := ih hmore
      obtain ⟨aid, anode, anameId, anameNode⟩ := a
      obtain ⟨bid, bnode, bnameId, bnameNode⟩ := b
      obtain ⟨rfl, rfl, rfl, rfl⟩ : aid = bid ∧ anode = bnode ∧ anameId = bnameId ∧
        anameNode = bnameNode := ⟨hid, hnode, hnameId, hnameNode⟩
      exact ⟨rfl, hsame⟩

namespace Lowered

/-- A statement with the labels in front of it, of which there may be none. -/
theorem labelled_inv
    (hlow : Lowered site E .list w past (labelForest labels ++ .cons id l kids rest) g events)
    (hl : l.kind.isSingle) :
    ∃ inner front h stop hr complaints events1 events2,
      g = front ++ (h ++ ((if inner = E then .nil else .leaf stop (.ofKind .target)) ++ hr)) ∧
      events = complaints ++ (events1 ++ events2) ∧ (inner ≠ E → site.IsNew stop) ∧
      LabelsOpen stop (kids.continueOf l) E labels inner front complaints ∧
      Lowered site inner .one w past (.tree id l kids) h events1 ∧
      Lowered site E .list w (met past events1) rest hr events2 := by
  have hne {k : Token} (hk : k.isSingle = false) : l.kind ≠ k := by
    rintro rfl
    simp [hl] at hk
  generalize hf : labelForest labels ++ .cons id l kids rest = f at hlow
  cases hlow with
  | nil => exact absurd (congrArg Forest.roots hf) (by simp)
  | labelled hopen hnew hone hrest =>
    have hsingle := hone.single_tree
    obtain ⟨rfl, rfl, rfl, rfl, rfl⟩ := labelForest_inj (hne rfl)
      (fun he => by simp [he, isSingle] at hsingle) hf
    exact ⟨_, _, _, _, _, _, _, _, rfl, rfl, hnew, hopen, hone, hrest⟩
  | target hk | withScope hk | exit hk =>
    simpa [hk, isSingle] using labelForest_head hl hf.symm

/-- A statement without labels. -/
theorem node_inv (hlow : Lowered site E .list w past (.cons id l kids rest) g events)
    (hl : l.kind.isSingle) :
    ∃ h hr events1 events2, g = h ++ hr ∧ events = events1 ++ events2 ∧
      Lowered site E .one w past (.tree id l kids) h events1 ∧
      Lowered site E .list w (met past events1) rest hr events2 := by
  have hlow : Lowered site E .list w past (labelForest [] ++ .cons id l kids rest) g events := hlow
  obtain ⟨inner, front, h, stop, hr, complaints, events1, events2, hg, hev, -, hopen, hone,
    hrest⟩ := labelled_inv hlow hl
  cases hopen
  exact ⟨h, hr, events1, events2, by simpa using hg, by simpa using hev, hone, hrest⟩

private theorem declNil_inv (hlow : Lowered site E .decls w past .nil g events) :
    g = .nil ∧ events = [] := by
  cases hlow
  exact ⟨rfl, rfl⟩

private theorem decl_inv (hlow : Lowered site E .decls w past (.cons id l .nil rest) g events) :
    Lowered site E .decls w past rest g events := by
  cases hlow with
  | decl _ hrest => exact hrest
  | declInit _ _ _ hinit =>
    obtain ⟨_, _, _, heq, -⟩ := hinit.single
    cases heq

private theorem declInit_inv {init : Forest} (hinit : init ≠ .nil)
    (hlow : Lowered site E .decls w past (.cons id l init rest) g events) :
    ∃ hi hr pop assign line events1 events2, (site.IsNew pop ∧ site.IsNew assign) ∧
      g = .cons pop ((Node.ofKind .pop).withLine line)
        (.tree assign (.ofKind .setName) (.cons id (l.withKind .bindName) .nil hi)) hr ∧
      events = site.nameEvents E (l.string?.getD "") ++ (events1 ++ events2) ∧
      Lowered site E .one w past init hi events1 ∧
      Lowered site E .decls w (met past events1) rest hr events2 := by
  cases hlow with
  | decl => exact absurd rfl hinit
  | declInit _ hpop hassign hinit hrest =>
    exact ⟨_, _, _, _, _, _, _, ⟨hpop, hassign⟩, rfl, rfl, hinit, hrest⟩

end Lowered

/-! ## Scopes around the same statements -/

section

variable {P : (NodeId → NodeId) → Prop}

/-- What the statements around a node tell about its scopes. -/
theorem map_of_enclosures {α : Type} {g : Scope → α}
    (hg : ∀ scope scope' : Scope, scope'.enclosure = scope.enclosure → g scope' = g scope)
    (h : E'.map Scope.enclosure = E.map Scope.enclosure) : E'.map g = E.map g := by
  induction E generalizing E' with
  | nil => rw [List.map_eq_nil_iff.mp h]
  | cons scope E ih =>
    cases E' with
    | nil => simp at h
    | cons scope' E' =>
      simp only [List.map_cons, List.cons.injEq] at h ⊢
      exact ⟨hg scope scope' h.1, ih h.2⟩

private theorem nameEvents_of_enclosures (site : Site) (name : String)
    (h : E'.map Scope.enclosure = E.map Scope.enclosure) :
    site.nameEvents E' name = site.nameEvents E name := by
  have hkinds : E'.map Scope.kind = E.map Scope.kind :=
    map_of_enclosures (fun _ _ => Scope.kind_of_enclosure) h
  have hwith (E : List Scope) :
      (∀ scope ∈ E, scope.kind ≠ .withBody) ↔ .withBody ∉ E.map Scope.kind := by
    simp [List.mem_map]
  simp only [Site.nameEvents, hwith, hkinds]

private theorem clauseEvents_of_enclosures (isCase : Bool) (node : NodeId)
    (h : E'.map Scope.enclosure = E.map Scope.enclosure) :
    clauseEvents E' isCase node = clauseEvents E isCase node := by
  have hnodes : E'.map (fun scope => (scope.kind, scope.node)) =
      E.map fun scope => (scope.kind, scope.node) :=
    map_of_enclosures (fun _ _ he =>
      Prod.ext (Scope.kind_of_enclosure he) (Scope.node_of_enclosure he)) h
  have hfind (E : List Scope) : (E.find? (·.kind = .switch)).map (·.node) =
      ((E.map fun scope => (scope.kind, scope.node)).find? (·.1 = .switch)).map (·.2) := by
    rw [List.find?_map, Option.map_map]
    rfl
  have hevents (E : List Scope) : clauseEvents E isCase node =
      ((E.find? (·.kind = .switch)).map (·.node)).toList.map (.clause · isCase node) := by
    rw [clauseEvents]
    cases E.find? (·.kind = .switch) <;> rfl
  rw [hevents, hevents, hfind, hfind, hnodes]

private theorem plainEvents_of_enclosures (site : Site) (id : NodeId) (l : Node) (kids : Forest)
    (h : E'.map Scope.enclosure = E.map Scope.enclosure) :
    site.plainEvents E' id l kids = site.plainEvents E id l kids := by
  simp only [Site.plainEvents, clauseEvents_of_enclosures _ _ h, nameEvents_of_enclosures _ _ h]

private theorem any_isLabelled_of_enclosures (name : String)
    (h : E'.map Scope.enclosure = E.map Scope.enclosure) :
    E'.any (Scope.isLabelled name) = E.any (Scope.isLabelled name) := by
  have hnames : E'.map (Scope.isLabelled name) = E.map (Scope.isLabelled name) :=
    map_of_enclosures (fun _ _ => Scope.isLabelled_of_enclosure) h
  simpa [List.any_map, Function.comp_def] using congrArg (List.any · id) hnames

/-- The steps that leave the scopes differ in their targets alone. -/
theorem bare_steps_of_enclosures (h : E'.map Scope.enclosure = E.map Scope.enclosure) :
    (E'.filterMap Scope.step?).map Node.bare = (E.filterMap Scope.step?).map Node.bare := by
  have hbare : E'.map (fun scope => scope.step?.map Node.bare) =
      E.map fun scope => scope.step?.map Node.bare :=
    map_of_enclosures (fun _ _ => Scope.bare_step?_of_enclosure) h
  have hfilter := congrArg (List.filterMap id) hbare
  simpa [List.filterMap_map, List.map_filterMap, Function.comp_def] using hfilter

private theorem steps_eq_nil_iff (h : E'.map Scope.enclosure = E.map Scope.enclosure) :
    E'.filterMap Scope.step? = [] ↔ E.filterMap Scope.step? = [] := by
  have hbare := bare_steps_of_enclosures h
  rw [← List.map_eq_nil_iff (f := Node.bare), hbare, List.map_eq_nil_iff]

/-- The steps that leave the scopes. -/
theorem Forest.Alike.steps {steps steps' : List (NodeId × Node)}
    (hsteps : steps.map Prod.snd = E.filterMap Scope.step?)
    (hsteps' : steps'.map Prod.snd = E'.filterMap Scope.step?)
    (hnew : ∀ step ∈ steps, first ≤ step.1.index) (hnew' : ∀ step ∈ steps', first ≤ step.1.index)
    (h : E'.map Scope.enclosure = E.map Scope.enclosure)
    (hP : ∀ ρ, P ρ → E' = E.map (Scope.rename ρ)) :
    (Forest.leaves steps).Alike first P (.leaves steps') := by
  refine .leaves hnew hnew' ?_ fun ρ hρ => ?_
  · rw [← List.map_map, ← List.map_map, hsteps, hsteps', bare_steps_of_enclosures h]
  · rw [hsteps, hsteps', hP ρ hρ, filterMap_step?_rename]

/-- The scopes inside the destination of a jump. -/
theorem enclosures_inside (hE : E = inner ++ dest :: outer)
    (hinner : ∀ scope ∈ inner, ¬ scope.isDestination isBreak label)
    (hdest : dest.isDestination isBreak label) :
    inner.map Scope.enclosure =
      (E.map Scope.enclosure).takeWhile fun e => !e.isDestination isBreak label := by
  rw [hE, List.map_append, List.takeWhile_append_of_pos, List.map_cons,
    List.takeWhile_cons_of_neg (by simp [hdest]), List.append_nil]
  intro e he
  obtain ⟨scope, hscope, rfl⟩ := List.mem_map.mp he
  simp [hinner scope hscope]

private theorem jumpError?_eq_none {target : NodeId} (hE : E = inner ++ dest :: outer)
    (hinner : ∀ scope ∈ inner, ¬ scope.isDestination isBreak label)
    (hdest : dest.isDestination isBreak label) (htarget : dest.target? isBreak = some target) :
    jumpError? isBreak label (E.map Scope.enclosure) = none := by
  have hfind : E.find? (Scope.isDestination isBreak label) = some dest := by
    rw [hE, List.find?_append, List.find?_eq_none.mpr hinner, Option.none_or,
      List.find?_cons_of_pos hdest]
  rw [jumpError?_scopes, hfind, if_neg (by simp [htarget])]

end

/-! ## Labels -/

/-- Scopes are opened or not. -/
theorem LabelsOpen.eq_iff (h : LabelsOpen stop continueTo E labels inner front events) :
    inner = E ↔ inner.length = E.length := by
  obtain ⟨opened, rfl, -⟩ := h.exists_append
  simp

/-- The same labels open their scopes, and those that are open end at the target behind the
statement. -/
theorem LabelsOpen.alike {stop' : NodeId} {front' : Forest}
    (h : LabelsOpen stop continueTo E labels inner front events)
    (h' : LabelsOpen stop' continueTo E' labels inner' front' events')
    (hscopes : E'.map Scope.enclosure = E.map Scope.enclosure)
    (hset : (labelForest labels).Settled first)
    (hcontinue : ∀ ρ, Fixes first ρ → continueTo.map ρ = continueTo) :
    events' = events ∧ inner'.map Scope.enclosure = inner.map Scope.enclosure ∧
      front.Twin first front' ∧ ∀ ρ, Around first E E' ρ → (inner ≠ E → ρ stop = stop') →
        Around first inner inner' ρ ∧ front' = front.rename ρ := by
  induction h generalizing E' inner' front' events' with
  | nil =>
    cases h'
    exact ⟨rfl, hscopes, trivial, fun ρ hρ _ => ⟨hρ, rfl⟩⟩
  | @repeated E a labels inner front events hname hrest ih =>
    cases h' with
    | fresh hname' => exact absurd (any_isLabelled_of_enclosures a.name hscopes ▸ hname) hname'
    | repeated _ hrest' =>
      obtain ⟨hev, hinner, htwin, hall⟩ := ih hrest' hscopes hset.2.2
      refine ⟨by rw [hev], hinner, ⟨⟨.refl _, rfl⟩, trivial, htwin⟩, fun ρ hρ hstop => ?_⟩
      obtain ⟨haround, hfront⟩ := hall ρ hρ hstop
      refine ⟨haround, ?_⟩
      rw [rename, hρ.fixes a.id hset.1.1, hset.1.2 ρ hρ.fixes, hfront, rename_nil]
  | @fresh E a labels inner front j events hname hdata hrest ih =>
    cases h' with
    | repeated hname' => exact absurd (any_isLabelled_of_enclosures a.name hscopes ▸ hname') hname
    | @fresh _ _ _ _ front' j' _ _ hdata' hrest' =>
      obtain rfl : j' = j := by rw [hdata] at hdata'; injection hdata' with hj; exact hj.symm
      obtain ⟨hev, hinner, htwin, hall⟩ := ih hrest'
        (by rw [List.map_cons, List.map_cons, hscopes]; rfl) hset.2.2
      refine ⟨hev, hinner, ⟨⟨.refl _, rfl⟩, trivial, htwin⟩, fun ρ hρ hstop => ?_⟩
      -- A scope is opened, so the target behind the statement is there.
      have hstop : ρ stop = stop' := hstop hrest.ne_tail
      have hid : ρ a.id = a.id := hρ.fixes a.id hset.1.1
      have hjump := hset.1.2.jump hdata hρ.fixes
      have hlabel : .label a.id a.name stop' continueTo =
          (Scope.label a.id a.name stop continueTo).rename ρ := by
        rw [Scope.rename, hid, hstop, hcontinue ρ hρ.fixes]
      obtain ⟨haround, hfront⟩ := hall ρ
        ⟨hρ.fixes, by rw [List.map_cons, ← hlabel, ← hρ.scopes_eq]⟩ fun _ => hstop
      refine ⟨haround, ?_⟩
      have hfinally : j'.finallyTarget.map ρ = j'.finallyTarget :=
        congrArg JumpData.finallyTarget hjump
      rw [rename, hid, Node.rename_withJump, hset.1.2 ρ hρ.fixes, hfront, rename_nil,
        JumpData.rename, hfinally, Option.map_some, hstop, hcontinue ρ hρ.fixes]

/-! ## What is below a node that is kept -/

namespace Forest

private theorem Settled.rootsOf (h : f.Settled first) {kind : Token} {n : Node}
    (hn : n ∈ f.rootsOf kind) : n.Fixed first := by
  induction f with
  | nil => simp [Forest.rootsOf] at hn
  | cons id l kids rest _ ih =>
    rw [Forest.rootsOf] at hn
    split at hn
    · rcases List.mem_cons.mp hn with rfl | hn
      · exact h.1.2
      · exact ih h.2.2 hn
    · exact ih h.2.2 hn

end Forest

private theorem Node.Fixed.continueTarget? (h : l.Fixed first) (hρ : Fixes first ρ) :
    l.continueTarget?.map ρ = l.continueTarget? := by
  unfold Node.continueTarget? Node.jump?
  cases hd : l.data with
  | jump j => exact congrArg JumpData.continueTarget (h.jump hd hρ)
  | none | switch | function => rfl

private theorem Forest.continueOf_fixed (hl : l.Fixed first) (hkids : kids.Settled first)
    (hρ : Fixes first ρ) : (kids.continueOf l).map ρ = kids.continueOf l := by
  have hloop : ((kids.rootsOf .loop).head?.bind Node.continueTarget?).map ρ =
      (kids.rootsOf .loop).head?.bind Node.continueTarget? := by
    cases hhead : (kids.rootsOf .loop).head? with
    | none => rfl
    | some n => exact (hkids.rootsOf (List.mem_of_mem_head? hhead)).continueTarget? hρ
  unfold continueOf
  split
  · exact hl.continueTarget? hρ
  · split
    · rfl
    · exact hloop
  · split
    · rfl
    · exact hloop
  · rfl

private theorem JumpLabel.eq {name : Forest} {label' : Option String}
    (h : JumpLabel name label) (h' : JumpLabel name label') : label' = label := by
  cases h <;> cases h' <;> rfl

/-- Where siblings are split in two is told by how many there are in the first part. -/
theorem Forest.append_inj (heq : a ++ b = a' ++ b')
    (hlen : a.roots.length = a'.roots.length) : a = a' ∧ b = b' := by
  induction a generalizing a' with
  | nil =>
    cases a' with
    | nil => exact ⟨rfl, heq⟩
    | cons => simp at hlen
  | cons id l kids rest _ ih =>
    cases a' with
    | nil => simp at hlen
    | cons id' l' kids' rest' =>
      injection heq with hid hl hkids hrest
      obtain ⟨rfl, rfl⟩ := ih hrest (by simpa using hlen)
      exact ⟨by rw [hid, hl, hkids], rfl⟩

/-- Or in the second. -/
theorem Forest.append_inj' (heq : a ++ b = a' ++ b')
    (hlen : b.roots.length = b'.roots.length) : a = a' ∧ b = b' := by
  have hroots := congrArg (fun f => f.roots.length) heq
  simp only [roots_append, List.length_append] at hroots
  exact append_inj heq (by omega)

namespace Lowered

private theorem length_roots (hlow : Lowered site E .one w past f h events) :
    f.roots.length = 1 := by
  obtain ⟨_, _, _, rfl, -⟩ := hlow.single
  rfl

end Lowered

/-- A label that is kept. -/
theorem Node.Fixed.around (h : l.Fixed first) (ρ : NodeId → NodeId)
    (hρ : Around first E E' ρ) : l = l.rename ρ := (h ρ hρ.fixes).symm

/-- One more scope is open. -/
theorem Around.cons {scope scope' : Scope} (h : Around first E E' ρ)
    (hscope : scope' = scope.rename ρ) : Around first (scope :: E) (scope' :: E') ρ :=
  ⟨h.fixes, by rw [List.map_cons, ← hscope, ← h.scopes_eq]⟩

/-- A jump finds its destination in the same place, and a renaming of all scopes renames those
inside the destination, and the destination. -/
theorem destination_alike {outer' : List Scope} {dest' : Scope}
    (hscopes : E'.map Scope.enclosure = E.map Scope.enclosure) (hE : E = inner ++ dest :: outer)
    (hE' : E' = inner' ++ dest' :: outer')
    (hinner : ∀ scope ∈ inner, ¬ scope.isDestination isBreak label)
    (hinner' : ∀ scope ∈ inner', ¬ scope.isDestination isBreak label)
    (hdest : dest.isDestination isBreak label) (hdest' : dest'.isDestination isBreak label) :
    inner'.map Scope.enclosure = inner.map Scope.enclosure ∧
      ∀ ρ, Around first E E' ρ → inner' = inner.map (Scope.rename ρ) ∧ dest' = dest.rename ρ := by
  have hinside : inner'.map Scope.enclosure = inner.map Scope.enclosure := by
    rw [enclosures_inside hE hinner hdest, enclosures_inside hE' hinner' hdest', hscopes]
  refine ⟨hinside, fun ρ hρ => ?_⟩
  have heq := hρ.scopes_eq
  rw [hE, hE', List.map_append, List.map_cons] at heq
  have hlen := congrArg List.length hinside
  obtain ⟨h1, h2⟩ := List.append_inj heq (by simpa using hlen)
  injection h2 with h2
  exact ⟨h1, h2⟩

namespace Lowered

/-- What lowering makes of a forest, and what it notes on its way, is determined by the statements
around it, up to the names of new nodes. -/
theorem alike (hlow : Lowered site E form w past f h events)
    (hlow' : Lowered site E' form w past f h' events')
    (hscopes : E'.map Scope.enclosure = E.map Scope.enclosure) (hset : f.Settled site.first)
    (hline : form = .decls → ∃ line, (∀ n ∈ h.rootsOf .pop, n.line = line) ∧
      ∀ n ∈ h'.rootsOf .pop, n.line = line) :
    events' = events ∧ h.Alike site.first (Around site.first E E') h' := by
  generalize hf : f = f' at hlow'
  -- Both derivations end with the rule for the kind of the root, but for the rules that look at
  -- what is around it.
  induction hlow generalizing E' h' events' f' with
  | plain hkind _ hdelete _ ih =>
    subst hf
    obtain ⟨h1, events1, rfl, rfl, hkids⟩ := hlow'.plain_inv hkind fun hk => (hdelete hk).1
    obtain ⟨rfl, halike⟩ := ih hscopes hset.2.1 (by simp) _ rfl hkids
    exact ⟨by rw [plainEvents_of_enclosures _ _ _ _ hscopes],
      .kept (hset.1.2.lowered _ _).around halike .nil⟩
  | deleteName hkind hbind =>
    cases hlow' with
    | deleteName =>
      cases hf
      exact ⟨nameEvents_of_enclosures _ _ hscopes, .kept hset.1.2.around
        (.kept hset.2.1.1.2.around .nil (.kept hset.2.1.2.2.1.2.around .nil .nil)) .nil⟩
    | plain _ _ hdelete =>
      cases hf
      exact absurd (hdelete hkind).1 (by simp [bindsName, hbind])
    | _ =>
      obtain ⟨-, rfl, -⟩ := Forest.cons.inj hf
      simp_all
  | function hkind hdata =>
    cases hlow' with
    | function _ hdata' =>
      cases hf
      rw [hdata] at hdata'
      injection hdata' with hbody
      exact ⟨by rw [hbody], .kept hset.1.2.around .nil .nil⟩
    | _ =>
      obtain ⟨-, rfl, -⟩ := Forest.cons.inj hf
      simp_all [isKept, isPlain]
  | var hkind hnew hpops _ ih =>
    cases hlow' with
    | var _ hnew' hpops' hdecls =>
      cases hf
      obtain ⟨rfl, halike⟩ := ih hscopes hset.2.1 (fun _ => ⟨_, hpops, hpops'⟩) _ rfl hdecls
      exact ⟨rfl, .made hnew hnew' (Node.fixed_ofKindAt _ _).around halike .nil⟩
    | _ =>
      obtain ⟨-, rfl, -⟩ := Forest.cons.inj hf
      simp_all [isKept, isPlain]
  | @ret E w past id l steps hkind _ hsteps hnew =>
    cases hlow' with
    | ret _ _ hsteps' hnew' =>
      cases hf
      refine ⟨rfl, .append ?_ (.kept hset.1.2.around .nil .nil)⟩
      cases past with
      | true => exact .steps hsteps hsteps' hnew hnew' hscopes fun ρ hρ => hρ.scopes_eq
      | false =>
        rw [if_neg (by simp), List.map_eq_nil_iff] at hsteps hsteps'
        subst hsteps hsteps'
        exact .nil
    | retValue _ _ _ hvalue | retLater _ _ _ hvalue =>
      obtain ⟨_, _, _, rfl, -⟩ := hvalue.single
      cases hf
    | _ =>
      obtain ⟨-, rfl, -⟩ := Forest.cons.inj hf
      simp_all [isKept, isPlain]
  | retValue hkind _ hsteps hvalue ih =>
    cases hlow' with
    | ret =>
      obtain ⟨_, _, _, rfl, -⟩ := hvalue.single
      cases hf
    | retValue _ _ _ hvalue' =>
      cases hf
      obtain ⟨rfl, halike⟩ := ih hscopes hset.2.1 (by simp) _ rfl hvalue'
      exact ⟨rfl, .kept hset.1.2.around halike .nil⟩
    | retLater _ hpast hsome =>
      -- Whether there is something to leave can be told from the statements around.
      have hnone := hsteps.resolve_left (by simp [hpast])
      exact absurd ((steps_eq_nil_iff hscopes).mpr hnone) hsome
    | _ =>
      obtain ⟨-, rfl, -⟩ := Forest.cons.inj hf
      simp_all [isKept, isPlain]
  | retLater hkind hpast hsome hvalue hsteps hnew hblock hstore hback ih =>
    cases hlow' with
    | ret =>
      obtain ⟨_, _, _, rfl, -⟩ := hvalue.single
      cases hf
    | retValue _ _ hnone =>
      have hnone := hnone.resolve_left (by simp [hpast])
      exact absurd ((steps_eq_nil_iff hscopes).mp hnone) hsome
    | retLater _ _ _ hvalue' hsteps' hnew' hblock' hstore' hback' =>
      cases hf
      obtain ⟨rfl, halike⟩ := ih hscopes hset.2.1 (by simp) _ rfl hvalue'
      refine ⟨rfl, .made hblock hblock' (Node.fixed_ofKindAt _ _).around
        (.made hstore hstore' ((Node.fixed_ofKind _).withLine _).around halike (.append ?_
          (.made hback hback' (Node.fixed_ofKindAt _ _).around .nil .nil))) .nil⟩
      exact .steps hsteps hsteps' hnew hnew' hscopes fun ρ hρ => hρ.scopes_eq
    | _ =>
      obtain ⟨-, rfl, -⟩ := Forest.cons.inj hf
      simp_all [isKept, isPlain]
  | @jump E inner dest outer w past id l j name label target steps hkind hdata hname hE hinner
      hdest htarget hsteps hnew =>
    cases hlow' with
    | @jump _ inner' dest' _ _ _ _ _ j' _ _ target' _ _ hdata' hname' hE' hinner' hdest' htarget'
        hsteps' hnew' =>
      cases hf
      obtain rfl : j' = j := by rw [hdata] at hdata'; injection hdata' with hj; exact hj.symm
      obtain rfl := hname.eq hname'
      -- The destinations stand in the same place, and so the same scopes are left.
      obtain ⟨hinside, hparts⟩ : _ ∧ ∀ ρ, Around site.first E _ ρ → _ :=
        destination_alike hscopes hE hE' hinner hinner' hdest hdest'
      refine ⟨rfl, (Forest.Alike.steps hsteps hsteps' hnew hnew' hinside fun ρ hρ =>
        (hparts ρ hρ).1).append (.cons (.refl id) rfl (fun ρ hρ => ?_) .nil .nil)⟩
      obtain rfl : target' = ρ target := by
        rw [(hparts ρ hρ).2, Scope.target?_rename, htarget] at htarget'
        exact (Option.some.inj htarget').symm
      have hj := hset.1.2.jump hdata hρ.fixes
      have hcontinue : j'.continueTarget.map ρ = j'.continueTarget :=
        congrArg JumpData.continueTarget hj
      have hfinally : j'.finallyTarget.map ρ = j'.finallyTarget :=
        congrArg JumpData.finallyTarget hj
      rw [Node.rename_withJump, Node.rename_withKind, hset.1.2 ρ hρ.fixes, JumpData.rename,
        hcontinue, hfinally, Option.map_some]
    | lost _ _ hname' hlost =>
      cases hf
      obtain rfl := hname.eq hname'
      have hnone := jumpError?_eq_none hE hinner hdest htarget
      rw [← hscopes, jumpError?_scopes, if_pos hlost] at hnone
      cases hnone
    | _ =>
      obtain ⟨-, rfl, -⟩ := Forest.cons.inj hf
      rcases hkind with hkind | hkind <;> simp_all [isKept, isPlain]
  | @lost E w past id l j name label hkind hdata hname hlost =>
    have herror := jumpError?_scopes (l.kind = .breakStmt) label E
    rw [if_pos hlost] at herror
    cases hlow' with
    | jump _ _ hname' hE' hinner' hdest' htarget' =>
      cases hf
      obtain rfl := hname.eq hname'
      rw [← hscopes, jumpError?_eq_none hE' hinner' hdest' htarget'] at herror
      cases herror
    | lost _ _ hname' hlost' =>
      cases hf
      obtain rfl := hname.eq hname'
      rw [← hscopes, jumpError?_scopes, if_pos hlost'] at herror
      exact ⟨by rw [Option.some.inj herror], .kept (hset.1.2.withKind _).around .nil .nil⟩
    | _ =>
      obtain ⟨-, rfl, -⟩ := Forest.cons.inj hf
      rcases hkind with hkind | hkind <;> simp_all [isKept, isPlain]
  | @switch E w past id l data selector clauses hs hc stop events1 events2 hkind _ hnew hselector
      _ ihs ihc =>
    cases hlow' with
    | @switch _ _ _ _ _ _ _ _ hs' hc' stop' _ _ _ _ hnew' hselector' hclauses' =>
      obtain ⟨rfl, rfl, heq, -⟩ := Forest.cons.inj hf
      obtain ⟨rfl, rfl⟩ :=
        append_inj heq (hselector.length_roots.trans hselector'.length_roots.symm)
      obtain ⟨hsetSelector, hsetClauses⟩ := settled_append.mp hset.2.1
      -- Inside, the scopes differ in the break target of the switch.
      have hinner : (Scope.switch id stop' :: E').map Scope.enclosure =
          (Scope.switch id stop :: E).map Scope.enclosure := by
        rw [List.map_cons, List.map_cons, hscopes]
        rfl
      obtain ⟨rfl, hs1⟩ := ihs hinner hsetSelector (by simp) _ rfl hselector'
      obtain ⟨rfl, hc1⟩ := ihc hinner hsetClauses (by simp) _ rfl hclauses'
      refine ⟨rfl, .given (Q := Around site.first (.switch id stop :: E) (.switch id stop' :: E'))
        (fun ρ hρ hids => ?_) (.cons (.refl id) rfl (fun ρ hρ => ?_) hs1 (hc1.append
          (.made hnew hnew' (Node.fixed_ofKind _).around .nil .nil)))⟩
      · -- The break target is the last node.
        have hparts : (hs' ++ (hc' ++ .leaf stop' (.ofKind .target))).ids =
            (hs ++ (hc ++ .leaf stop (.ofKind .target))).ids.map ρ := by
          simpa using (List.cons.inj hids).2
        obtain ⟨-, hlast⟩ := ids_split hs1.length_eq hparts
        obtain ⟨-, hlast⟩ := ids_split hc1.length_eq hlast
        refine hρ.cons ?_
        rw [Scope.rename, hρ.fixes id hset.1.1]
        simpa using hlast
      · have hstop := (List.cons.inj hρ.scopes_eq).1
        injection hstop with _ hstop
        rw [Node.rename_withStop, hset.1.2 ρ hρ.fixes, hstop]
        rfl
    | _ =>
      obtain ⟨-, rfl, -⟩ := Forest.cons.inj hf
      simp_all [isKept, isPlain]
  | @loop E w past id l j body hb stop ls continueTo events hkind hdata _ hcontinue _ _ _ _
      ih =>
    cases hlow' with
    | loop _ hdata' _ hcontinue' _ hbody' =>
      obtain ⟨rfl, rfl, heq, -⟩ := Forest.cons.inj hf
      obtain ⟨rfl, hlast⟩ := append_inj' heq rfl
      obtain ⟨rfl, rfl, -⟩ := Forest.cons.inj hlast
      rw [hdata] at hdata'
      injection hdata' with hj
      rw [← hj, hcontinue] at hcontinue'
      obtain rfl := Option.some.inj hcontinue'
      obtain ⟨hsetBody, hsetStop⟩ := settled_append.mp hset.2.1
      obtain ⟨rfl, halike⟩ :=
        ih (by rw [List.map_cons, List.map_cons, hscopes]) hsetBody (by simp) _ rfl hbody'
      refine ⟨rfl, .given (fun ρ hρ _ => hρ.cons ?_) (.kept hset.1.2.around
        (halike.append (.kept hsetStop.1.2.around .nil .nil)) .nil)⟩
      have hto : j.continueTarget.map ρ = j.continueTarget :=
        congrArg JumpData.continueTarget (hset.1.2.jump hdata hρ.fixes)
      rw [hcontinue] at hto
      rw [Scope.rename, hρ.fixes id hset.1.1, hρ.fixes stop hsetStop.1.1, Option.some.inj hto]
    | _ =>
      obtain ⟨-, rfl, -⟩ := Forest.cons.inj hf
      simp_all [isKept, isPlain]
  | tryCatch hkind hdata hfinally _ ih =>
    cases hlow' with
    | tryCatch _ _ _ hkids =>
      cases hf
      obtain ⟨rfl, halike⟩ := ih hscopes hset.2.1 (by simp) _ rfl hkids
      exact ⟨rfl, .kept hset.1.2.around halike .nil⟩
    | tryFinally _ hdata' hfinally' =>
      obtain ⟨-, rfl, -⟩ := Forest.cons.inj hf
      rw [hdata] at hdata'
      injection hdata' with hj
      rw [hj, hfinally'] at hfinally
      cases hfinally
    | _ =>
      obtain ⟨-, rfl, -⟩ := Forest.cons.inj hf
      simp_all [isKept, isPlain]
  | @tryFinally E w past id l j guarded hg entry le final hf' back lb stop ls events1 events2 hkind
      hdata hfinally _ _ _ hfinal _ _ _ ihg ihf =>
    cases hlow' with
    | tryCatch _ hdata' hfinally' =>
      obtain ⟨-, rfl, -⟩ := Forest.cons.inj hf
      rw [hdata] at hdata'
      injection hdata' with hj
      rw [hj, hfinally'] at hfinally
      cases hfinally
    | tryFinally _ _ _ hguarded' _ _ hfinal' =>
      obtain ⟨rfl, rfl, heq, -⟩ := Forest.cons.inj hf
      obtain ⟨rfl, hlast⟩ := append_inj' heq
        (by simp [hfinal.length_roots, hfinal'.length_roots])
      obtain ⟨rfl, rfl, -, hthen⟩ := Forest.cons.inj hlast
      obtain ⟨rfl, hends⟩ :=
        append_inj hthen (hfinal.length_roots.trans hfinal'.length_roots.symm)
      cases hends
      obtain ⟨hsetGuarded, hsetEntry, -, hsetThen⟩ := settled_append.mp hset.2.1
      obtain ⟨hsetFinal, hsetBack, -, hsetStop⟩ := settled_append.mp hsetThen
      obtain ⟨rfl, hg1⟩ :=
        ihg (by rw [List.map_cons, List.map_cons, hscopes]) hsetGuarded (by simp) _ rfl hguarded'
      obtain ⟨rfl, hf1⟩ := ihf hscopes hsetFinal (by simp) _ rfl hfinal'
      refine ⟨rfl, .kept hset.1.2.around (.append (.given (fun ρ hρ _ => hρ.cons ?_) hg1)
        (.kept hsetEntry.2.around .nil (hf1.append (.kept hsetBack.2.around .nil
          (.kept hsetStop.1.2.around .nil .nil))))) .nil⟩
      rw [Scope.rename, hρ.fixes id hset.1.1, hρ.fixes entry hsetEntry.1]
    | _ =>
      obtain ⟨-, rfl, -⟩ := Forest.cons.inj hf
      simp_all [isKept, isPlain]
  | nil =>
    subst hf
    obtain ⟨rfl, rfl⟩ := hlow'.nil_inv
    exact ⟨rfl, .nil⟩
  | target hkind _ _ ih =>
    cases hlow' with
    | nil => cases hf
    | target _ _ hrest' =>
      cases hf
      obtain ⟨rfl, halike⟩ := ih hscopes hset.2.2 (by simp) _ rfl hrest'
      exact ⟨rfl, .kept hset.1.2.around .nil halike⟩
    | labelled _ _ hone => simpa [hkind, isSingle] using labelForest_head hone.single_tree hf
    | withScope hk | exit hk => simp [← (Forest.cons.inj hf).2.1, hkind] at hk
  | @labelled E inner w past labels id l kids rest front h stop hr complaints events1 events2
      hopen hnew hone _ iho ihr =>
    subst hf
    obtain ⟨inner', front', h1, stop', hr1, _, _, _, rfl, rfl, hnew', hopen', hone', hrest'⟩ :=
      hlow'.labelled_inv hone.single_tree
    obtain ⟨hsetLabels, hsetNode, hsetKids, hsetRest⟩ := settled_append.mp hset
    obtain ⟨rfl, hinner, hfront, hall⟩ := hopen.alike hopen' hscopes hsetLabels fun ρ hρ =>
      continueOf_fixed hsetNode.2 hsetKids hρ
    obtain ⟨rfl, ha⟩ := iho hinner ⟨hsetNode, hsetKids, trivial⟩ (by simp) _ rfl hone'
    obtain ⟨rfl, hb⟩ := ihr hscopes hsetRest (by simp) _ rfl hrest'
    -- Both derivations open the labels or neither does.
    have hsame : inner' = E' ↔ inner = E := by
      have h1 := congrArg List.length hinner
      have h2 := congrArg List.length hscopes
      simp only [List.length_map] at h1 h2
      rw [hopen.eq_iff, hopen'.eq_iff, h1, h2]
    have hstop : (if inner = E then Forest.nil else .leaf stop (.ofKind .target)).Alike site.first
        (Around site.first E E')
        (if inner' = E' then .nil else .leaf stop' (.ofKind .target)) := by
      by_cases hin : inner = E
      · rw [if_pos hin, if_pos (hsame.mpr hin)]
        exact .nil
      · rw [if_neg hin, if_neg (mt hsame.mp hin)]
        exact .made (hnew hin) (hnew' (mt hsame.mp hin)) (Node.fixed_ofKind _).around .nil .nil
    -- If a scope is opened, the target is there, between the statement and the rest.
    refine ⟨rfl, .given (Q := fun ρ => Around site.first E E' ρ ∧ (inner ≠ E → ρ stop = stop'))
      (fun ρ hρ hids => ⟨hρ, fun hin => ?_⟩) (.append ⟨hfront, fun ρ hρ _ =>
        (hall ρ hρ.1 hρ.2).2⟩ (.append (ha.given fun ρ hρ _ => (hall ρ hρ.1 hρ.2).1)
          (.append (hstop.given fun ρ hρ _ => hρ.1) (hb.given fun ρ hρ _ => hρ.1))))⟩
    rw [if_neg hin, if_neg (mt hsame.mp hin)] at hids
    obtain ⟨-, hids⟩ := ids_split hfront.length_eq hids
    obtain ⟨-, hids⟩ := ids_split ha.length_eq hids
    exact (List.cons.inj hids).1.symm
  | @withScope E w past enter le object ho inner li body hb leave lv rest hr events1 events2 events3
      hkind _ _ _ _ _ iho ihb ihr =>
    cases hlow' with
    | nil => cases hf
    | withScope _ hobject' _ hbody' _ hrest' =>
      cases hf
      obtain ⟨hsetEnter, hsetObject, hsetInner, hsetBody, hsetLeave, -, hsetRest⟩ := hset
      obtain ⟨rfl, ha⟩ := iho hscopes hsetObject (by simp) _ rfl hobject'
      obtain ⟨rfl, hb⟩ :=
        ihb (by rw [List.map_cons, List.map_cons, hscopes]) hsetBody (by simp) _ rfl hbody'
      obtain ⟨rfl, hc⟩ := ihr hscopes hsetRest (by simp) _ rfl hrest'
      refine ⟨rfl, .kept hsetEnter.2.around ha (.kept hsetInner.2.around
        (hb.given fun ρ hρ _ => hρ.cons ?_) (.kept hsetLeave.2.around .nil hc))⟩
      rw [Scope.rename, hρ.fixes inner hsetInner.1, hρ.fixes leave hsetLeave.1]
    | labelled _ _ hone => simpa [hkind, isSingle] using labelForest_head hone.single_tree hf
    | target hk | exit hk => simp [← (Forest.cons.inj hf).2.1, hkind] at hk
  | exit hkind _ _ _ _ ih =>
    cases hlow' with
    | nil => cases hf
    | exit _ _ _ _ hrest' =>
      cases hf
      obtain ⟨rfl, halike⟩ := ih hscopes hset.2.2.2.2 (by simp) _ rfl hrest'
      exact ⟨rfl, .kept hset.1.2.around .nil (.kept hset.2.2.1.2.around .nil halike)⟩
    | labelled _ _ hone => simpa [hkind, isSingle] using labelForest_head hone.single_tree hf
    | target hk | withScope hk => simp [← (Forest.cons.inj hf).2.1, hkind] at hk
  | declNil =>
    subst hf
    obtain ⟨rfl, rfl⟩ := hlow'.declNil_inv
    exact ⟨rfl, .nil⟩
  | decl _ _ ih =>
    subst hf
    exact ih hscopes hset.2.2 hline _ rfl hlow'.decl_inv
  | declInit _ hpopNew hassign hinit _ ihi ihr =>
    subst hf
    obtain ⟨hi1, hr1, pop, assign, line1, _, _, ⟨hpopNew', hassign'⟩, rfl, rfl, hinit', hrest'⟩ :=
      hlow'.declInit_inv (fun he => by obtain ⟨_, _, _, rfl, -⟩ := hinit.single; cases he)
    -- The line of the declarations is told from outside.
    obtain ⟨line0, hlines, hlines'⟩ := hline rfl
    have hpop (line : Option Nat) : ((Node.ofKind .pop).withLine line).kind = .pop := rfl
    rw [rootsOf, if_pos (hpop _)] at hlines hlines'
    obtain ⟨rfl, ha⟩ := ihi hscopes hset.2.1 (by simp) _ rfl hinit'
    obtain ⟨rfl, hb⟩ := ihr hscopes hset.2.2 (fun _ =>
      ⟨line0, fun n hn => hlines n (by simp [hn]),
        fun n hn => hlines' n (by simp [hn])⟩) _ rfl hrest'
    have hsame := (hlines' _ List.mem_cons_self).trans (hlines _ List.mem_cons_self).symm
    obtain rfl : line1 = _ := hsame
    exact ⟨by rw [nameEvents_of_enclosures _ _ hscopes],
      .made hpopNew hpopNew' ((Node.fixed_ofKind _).withLine _).around
        (.made hassign hassign' (Node.fixed_ofKind _).around
          (.kept (hset.1.2.withKind _).around .nil ha) .nil) hb⟩

end Lowered

end ScriptEngine
