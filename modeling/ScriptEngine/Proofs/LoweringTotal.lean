import ScriptEngine.Proofs.DocumentBuilt
import ScriptEngine.Proofs.WalkBodies
import ScriptEngine.Proofs.WalkVariables

/-!
# Lowering succeeds

By induction over the grammar, the walk passes every forest that is built and leaves what `Lowered`
says. Bodies that are met on the way are smaller in what waits, so a second induction covers them.

## Key results

- `Layout.passes_of_built`: the walk passes what is built
- `Layout.lower_eq`: lowering a program succeeds, every body is done, and the events of the bodies
  account for what is known of them
-/

namespace ScriptEngine

open Lowering Forest

/-! ## Nodes alone -/

/-- A single node is no label, target or bound name. -/
theorem Built.one_kind {marks : NodeId → Nat → Prop} {w : Nat} {id : NodeId}
    {l : Node} {kids : Forest} (h : Built marks .one w (.tree id l kids)) :
    l.kind ≠ .label ∧ l.kind ≠ .target ∧ l.kind ≠ .bindName := by
  generalize hf : Forest.tree id l kids = f at h
  cases h with
  | plain hkind =>
    cases hf
    refine ⟨?_, ?_, ?_⟩ <;>
    · intro he
      simp [he, Token.isBare, Token.isPlain] at hkind
  | access hkind | jump hkind =>
    cases hf
    rcases hkind with hkind | hkind <;> simp [hkind]
  | name hkind | setName hkind | deleteName hkind | deleteProp hkind | function hkind | var hkind
  | ret hkind | retValue hkind | switch hkind | loop hkind | tryCatch hkind | tryFinally hkind =>
    cases hf
    simp [hkind]

/-- The first node of what a single node becomes is no bound name, if the node is none. -/
theorem Lowered.one_head {site : Site} {scopes : List Scope} {w : Nat} {past : Bool} {q : NodeId}
    {n : Node} {f h : Forest} {events : List Event}
    (hlow : Lowered site scopes .one w past (.tree q n f) h events) (hne : n.kind ≠ .bindName) :
    ∃ id l kids more, h = .cons id l kids more ∧ l.kind ≠ .bindName := by
  have hsteps (steps : List (NodeId × Node)) (inner : List Scope)
      (h : steps.map Prod.snd = inner.filterMap Scope.step?) (id : NodeId) (l : Node)
      (hl : l.kind ≠ .bindName) :
      ∃ id' l' kids more, Forest.leaves steps ++ .leaf id l = .cons id' l' kids more ∧
        l'.kind ≠ .bindName := by
    cases steps with
    | nil => exact ⟨_, _, _, _, rfl, hl⟩
    | cons x xs =>
      refine ⟨_, _, _, _, rfl, ?_⟩
      rcases Scope.kind_of_steps h x (by simp) with hk | hk <;> simp [hk]
  cases hlow with
  | plain => exact ⟨_, _, _, _, rfl, fun he => hne (Node.kind_of_lowered he nofun nofun)⟩
  | deleteName hkind | function hkind
  | retValue hkind | loop hkind | tryCatch hkind | tryFinally hkind =>
    exact ⟨_, _, _, _, rfl, by simp [hkind]⟩
  | var | retLater => exact ⟨_, _, _, _, rfl, by simp⟩
  | switch hkind => exact ⟨_, _, _, _, rfl, by simp [Node.withStop, hkind]⟩
  | ret hkind _ hstep =>
    refine hsteps _ (if past then scopes else []) ?_ _ _ (by simp [hkind])
    rw [hstep]
    cases past <;> rfl
  | jump _ _ _ _ _ _ _ hstep => exact hsteps _ _ hstep _ _ (by simp [Node.withKind])
  | lost => exact ⟨_, _, _, _, rfl, by simp [Node.withKind]⟩

namespace Layout

variable {L : Layout} {config : Config} {i : BodyId} {room w : Nat} {form : Form} {f : Forest}

/-! ## The walk passes what is built -/

/-- The walk passes a forest inside any scopes that leave room in the arena, and leaves what
lowering makes of it. Declarations are passed where they have been moved to. -/
def PassesForm (L : Layout) (config : Config) (room : Nat) (i : BodyId) (w : Nat) (f : Forest) :
    Form → Prop
  | .one => ∀ scopes, scopes.length + f.count ≤ L.nodeCount →
      L.Passes config room i scopes (fun _ => True) f (L.lowers config i scopes .one w f)
        (L.weight * f.count)
  | .list => ∀ scopes, scopes.length + f.count ≤ L.nodeCount →
      L.Passes config room i scopes (Unlabelled scopes) f (L.lowers config i scopes .list w f)
        (L.weight * f.count)
  | .decls => ∀ scopes, scopes.length + f.count ≤ L.nodeCount → ∀ line moved,
      Moved L.nodeCount line f moved →
      L.Passes config room i scopes (fun _ => True) moved (fun past events h =>
        L.lowers config i scopes .decls w f past events h ∧ ∀ n ∈ h.rootsOf .pop, n.line = line)
        (L.weight * f.count)

private theorem count_labelForest (labels : List LabelNode) :
    (labelForest labels).count = 2 * labels.length := by
  induction labels with
  | nil => rfl
  | cons a labels ih =>
    simp only [labelForest, count_cons, count_nil, ih, List.length_cons]
    omega

private theorem four_le_weight (L : Layout) : 4 ≤ L.weight := Nat.le_add_left ..

/-- A forest is passed within what the weight of a forest allows. -/
theorem Passes.within {scopes : List Scope} {fits : List NodeId → Prop} {f g : Forest}
    {result result' : Outcome} {budget : Nat}
    (hf : L.Passes config room i scopes fits f result budget)
    (hres : ∀ past events h, result past events h → result' past events h)
    (hle : budget ≤ L.weight * g.count := by
      simp only [count_cons, count_append, count_nil, Nat.mul_add]; omega) :
    L.Passes config room i scopes fits f result' (L.weight * g.count) :=
  hf.mono (fun _ h => h) hres hle

/-- The walk passes every forest that is built, if it passes the bodies that it may meet. -/
theorem passes_of_built
    (hbodies : ∀ body : BodyId, body.index < L.size → ∀ room' < room,
      L.Passes config room' body [] (fun _ => True) (L.kids body)
        (L.lowers config body [] .list 0 (L.kids body)) (L.weight * (L.kids body).count))
    (h : Built (L.site config i).marks form w f)
    (hfits : f.All fun l _ => l.Fits (L.program.limits i)) :
    L.PassesForm config room i w f form := by
  have hweight := L.four_le_weight
  -- Each case puts together what the rule for its kind of node says of the outcome.
  induction h with
  | plain hkind hjump _ ih =>
    intro scopes hscopes
    rw [count_cons] at hscopes
    refine (Passes.plain (Token.isPlain_of_isBare hkind) (ih hfits.2.1 scopes (by omega))
      (unlabelled_nil _)).within ?_
    rintro past _ _ ⟨events, rfl, hk, rfl, hres⟩
    rw [Site.met_plainEvents] at hres
    refine Lowered.plain (Token.isKept_of_isPlain (Token.isPlain_of_isBare hkind)) hjump ?_ hres
    exact fun hdel => absurd hkind (by simp [hdel, Token.isBare, Token.isPlain])
  | @access w id l object key hkind ho hk iho ihk =>
    intro scopes hscopes
    simp only [count_cons, count_append, count_nil] at hscopes
    obtain ⟨hfo, hfk⟩ := all_append.mp hfits.2.1
    obtain ⟨a, la, ka, rfl⟩ := ho.one_eq_tree
    obtain ⟨b, lb, kb, rfl⟩ := hk.one_eq_tree
    have hplain : l.kind.isPlain := by rcases hkind with hk | hk <;> rw [hk] <;> rfl
    refine (Passes.plain hplain ((iho hfo scopes (by omega)).append (ihk hfk scopes (by omega)))
      trivial).within ?_
    rintro past _ _ ⟨_, rfl, _, rfl, events, events', ho, hk, rfl, rfl, hobject, hkey⟩
    rw [Site.met_plainEvents] at hobject hkey
    exact Lowered.plain (Token.isKept_of_isPlain hplain)
      (by rcases hkind with hk | hk <;> simp [hk, Token.isBranch])
      (by rcases hkind with hk | hk <;> simp [hk]) (.pair hobject hkey)
  | name hkind =>
    intro scopes _
    refine (Passes.name hkind hfits.1.no_slot).within ?_
    rintro past _ _ ⟨rfl, rfl⟩
    exact Lowered.name (.inl hkind)
  | setName hkind hbind hvalue ih =>
    intro scopes hscopes
    simp only [count_cons, count_nil] at hscopes
    refine (Passes.setName hkind hfits.1.no_slot hbind (ih hfits.2.1.2.2 scopes (by omega))
      trivial).within ?_
    rintro past _ _ ⟨events, rfl, hv, rfl, hres⟩
    obtain ⟨v, lv, kv, rfl⟩ := hvalue.one_eq_tree
    exact Lowered.access (.inl hkind) (by simp [hkind]) (.name (.inr hbind)) hres
  | deleteName hkind hbind hkey =>
    intro scopes _
    refine (Passes.deleteName hkind hbind hkey).within ?_
    rintro past _ _ ⟨rfl, rfl⟩
    exact Lowered.deleteName hkind hbind hkey
  | deleteProp hkind hobject hkey iho ihk =>
    intro scopes hscopes
    simp only [count_cons, count_append, count_nil] at hscopes
    obtain ⟨hfo, hfk⟩ := all_append.mp hfits.2.1
    obtain ⟨c, lc, kc, rfl⟩ := hobject.one_eq_tree
    obtain ⟨b, lb, kb, rfl⟩ := hkey.one_eq_tree
    have hne := hobject.one_kind.2.2
    have hboth := (iho hfo scopes (by omega)).append (ihk hfk scopes (by omega))
    refine (Passes.deleteProp hkind hne hboth ?_ trivial).within ?_
    · rintro past _ _ ⟨events, events', ho, hk, rfl, rfl, hres, -⟩
      obtain ⟨_, _, _, _, rfl, hne⟩ := Lowered.one_head hres hne
      exact ⟨_, _, _, _, rfl, hne⟩
    · rintro past _ _ ⟨_, rfl, events, events', ho, hk, rfl, rfl, hres, hres'⟩
      obtain ⟨_, _, _, _, rfl, hhead⟩ := Lowered.one_head hres hne
      exact Lowered.access (.inr hkind) (fun _ => ⟨hne, by simpa [bindsName] using hhead⟩)
        hres hres'
  | function hkind hdata =>
    intro scopes _
    have hbody := (hfits.1.function _ hdata).2
    refine (Passes.function hkind hdata hbody (hbodies _ hbody)).within ?_
    rintro past _ _ ⟨rfl, rfl⟩
    exact Lowered.function hkind hdata
  | var hkind hdecls ih =>
    intro scopes hscopes
    simp only [count_cons, count_nil] at hscopes
    refine (Passes.var hkind hdecls (ih hfits.2.1 scopes (by omega) _)).within ?_
    rintro past events _ ⟨block, hk, hnew, rfl, hres, hline⟩
    exact Lowered.var hkind hnew hline hres
  | ret hkind =>
    intro scopes _
    exact (Passes.ret hkind).within fun _ _ _ h => h
  | retValue hkind hvalue ih =>
    intro scopes hscopes
    simp only [count_cons, count_nil] at hscopes
    obtain ⟨c, lc, kc, rfl⟩ := hvalue.one_eq_tree
    -- One step for each scope that is left.
    have hle : scopes.length + 3 ≤ L.weight := by
      rw [weight]
      omega
    exact (Passes.retValue hkind (ih hfits.2.1 scopes (by omega))).within fun _ _ _ h => h
  | jump hkind hdata hname =>
    intro scopes _
    exact (Passes.jump hkind hdata hname).within fun _ _ _ h => h
  | switch hkind hdata hselector _ ihs ihc =>
    intro scopes hscopes
    simp only [count_cons, count_append, count_nil] at hscopes
    obtain ⟨hfs, hfc⟩ := all_append.mp hfits.2.1
    obtain ⟨c, lc, kc, rfl⟩ := hselector.one_eq_tree
    refine (Passes.switch hkind hdata
      (fun stop => ihs hfs (_ :: scopes) (by simp only [List.length_cons]; omega))
      fun stop => ihc hfc (_ :: scopes) (by simp only [List.length_cons]; omega)).within ?_
    rintro past _ _ ⟨stop, hnew, events, _, _, _, rfl, rfl, ⟨hs, rfl, hres⟩, events', _, hc, _, rfl,
      rfl, hres', rfl, rfl⟩
    rw [List.append_nil]
    exact Lowered.switch hkind hdata hnew hres hres'
  | loop hkind hdata htarget hcontinue hmark _ hstop hstopMark ih =>
    intro scopes hscopes
    simp only [count_cons, count_append, count_nil] at hscopes
    refine (Passes.loop hkind hdata htarget hcontinue hstop
      (ih (all_append.mp hfits.2.1).1 (_ :: scopes)
        (by simp only [List.length_cons]; omega))).within ?_
    rintro past _ _ ⟨_, rfl, events, _, hb, _, rfl, rfl, hres, rfl, rfl⟩
    rw [List.append_nil]
    exact Lowered.loop hkind hdata htarget hcontinue hmark hres hstop hstopMark
  | tryCatch hkind hdata hfinally _ ih =>
    intro scopes hscopes
    simp only [count_cons, count_nil] at hscopes
    refine (Passes.tryCatch hkind hdata hfinally (ih hfits.2.1 scopes (by omega))
      (unlabelled_nil _)).within ?_
    rintro past _ _ ⟨events, rfl, hk, rfl, hres⟩
    rw [show met past [.attempt] = past by simp [met]] at hres
    exact Lowered.tryCatch hkind hdata hfinally hres
  | @tryFinally w id l j guarded entry le final back lb stop ls hkind hdata hfinally _ hentry
      hentryMark _ hback hstop hstopMark ihg ihf =>
    intro scopes hscopes
    simp only [count_cons, count_append, count_nil] at hscopes
    obtain ⟨hfg, -, -, hff⟩ := all_append.mp hfits.2.1
    have hleave : L.Passes config room i scopes (fun _ => True) (.leaf back lb) _ 1 :=
      .leaf (by rw [hback]; rfl)
    have hend : L.Passes config room i scopes (fun _ => True) (.leaf stop ls) _ 1 :=
      .close (.inl hstop)
    refine (Passes.tryFinally hkind hdata hfinally hentry
      (ihg hfg (_ :: scopes) (by simp only [List.length_cons]; omega))
      ((ihf (all_append.mp hff).1 scopes (by omega)).append (hleave.append hend)) trivial).within ?_
    rintro past _ _ ⟨_, rfl, _, rfl, events, _, hg, _, rfl, rfl, hres, _, _, _, _, rfl,
      rfl, ⟨rfl, rfl⟩,
      events', _, hf, _, rfl, rfl, hres', _, _, _, _, rfl, rfl, ⟨rfl, rfl⟩, rfl, rfl⟩
    have hmet : met past [.guard, .attempt] = true := by simp [met]
    rw [hmet] at hres
    rw [hmet, met_nil, met_true] at hres'
    simp only [List.append_nil, List.nil_append, List.cons_append]
    exact Lowered.tryFinally hkind hdata hfinally hres hentry hentryMark hres' hback hstop hstopMark
  | nil =>
    intro scopes _
    refine Passes.nil.mono (fun _ h => h) ?_ (Nat.zero_le _)
    rintro past _ _ ⟨rfl, rfl⟩
    exact Lowered.nil
  | target hkind hmark _ ih =>
    intro scopes hscopes
    simp only [count_cons, count_nil] at hscopes
    refine ((Passes.close (.inl hkind)).append (ih hfits.2.2 scopes (by omega))).within ?_
    rintro past _ _ ⟨_, events, _, hr, rfl, rfl, ⟨rfl, rfl⟩, hres⟩
    rw [met_nil] at hres
    exact Lowered.target hkind hmark hres
  | @labelled w labels id l kids rest hone _ iho ihr =>
    intro scopes hscopes s p before after hp hh hroom hafter hlist
    simp only [count_append, count_cons, count_labelForest] at hscopes
    obtain ⟨-, hfl, hfk, hfr⟩ := all_append.mp hfits
    -- Whatever labels are opened, the statement is passed inside them.
    have hinside : ∀ stop inner front complaints,
        LabelsOpen stop (kids.continueOf l) scopes labels inner front complaints →
        L.Passes config room i inner (fun _ => True) (.tree id l kids)
          (L.lowers config i inner .one w (.tree id l kids)) (L.weight * (kids.count + 1)) := by
      intro stop inner front complaints hopen
      obtain ⟨opened, rfl, hlen⟩ := hopen.exists_append
      have hcount : (Forest.tree id l kids).count = kids.count + 1 := by simp
      rw [← hcount]
      refine iho ⟨hfl, hfk, trivial⟩ _ ?_
      rw [List.length_append, hcount]
      omega
    refine (reaches_labelled none [] ⟨hone.one_kind.1, hone.one_kind.2.1⟩
      (fun stop inner front complaints _ => hinside stop inner front complaints)
      (ihr hfr scopes (by omega)) hafter hp hh (by simp) (by simp) hroom hlist).mono ?_ ?_
    · rintro past _ _ ⟨stop, -, inner, front, complaints, _, _, hopen, rfl, rfl, hnew,
        events, _, ho, _, rfl, rfl, hres, _, events', _, hr, rfl, rfl, ⟨rfl, rfl⟩, hres'⟩
      rw [met_nil] at hres'
      exact Lowered.labelled hopen hnew hres hres'
    · have hmul : labels.length ≤ L.weight * labels.length := Nat.le_mul_of_pos_left _ (by omega)
      simp only [labelTarget, count_append, count_cons, count_nil, count_labelForest, Nat.mul_add,
        Nat.two_mul]
      omega
  | @withScope w enter le object inner li body leave lv rest henter _ hinner _
      hleave _ iho ihb ihr =>
    intro scopes hscopes
    simp only [count_cons, count_nil] at hscopes
    have hobject : L.Passes config room i scopes (fun _ => True) (.tree enter le object) _ _ :=
      .quiet (by rw [henter]; rfl) (iho hfits.2.1 scopes (by omega)) (unlabelled_nil _)
    refine (hobject.append (Passes.withScope hinner hleave
      (ihb hfits.2.2.2.1 (_ :: scopes) (by simp only [List.length_cons]; omega))
      (ihr hfits.2.2.2.2.2.2 scopes (by omega)))).within ?_
    rintro past _ _ ⟨events, _, _, _, rfl, rfl, ⟨ho, rfl, hres⟩, _, rfl, events', _, _, _, rfl, rfl,
      ⟨hb, rfl, hres'⟩, _, events'', _, hr, rfl, rfl, ⟨rfl, rfl⟩, hres''⟩
    rw [Site.met_activations] at hres' hres''
    rw [met_nil] at hres''
    exact Lowered.withScope henter hres hinner hres' hleave hres''
  | @exit w leave lv skip lg target rest hleave hskip htarget hmark _ ih =>
    intro scopes hscopes
    simp only [count_cons, count_nil] at hscopes
    have hgoto : L.Passes config room i scopes (fun _ => True) (.leaf skip lg) _ 1 :=
      .leaf (by rw [hskip]; rfl)
    refine ((Passes.close (.inr hleave)).append
      (hgoto.append (ih hfits.2.2.2.2 scopes (by omega)))).within ?_
    rintro past _ _ ⟨_, _, _, _, rfl, rfl, ⟨rfl, rfl⟩, _, events, _, hr, rfl, rfl, ⟨rfl, rfl⟩, hres⟩
    rw [met_nil, met_nil] at hres
    exact Lowered.exit hleave hskip htarget hmark hres
  | declNil =>
    intro scopes _ line moved hmoved
    cases hmoved
    refine Passes.nil.mono (fun _ h => h) ?_ (Nat.zero_le _)
    rintro past _ _ ⟨rfl, rfl⟩
    exact ⟨Lowered.declNil, by simp [rootsOf]⟩
  | decl hkind _ ih =>
    intro scopes hscopes line moved hmoved
    simp only [count_cons, count_nil] at hscopes
    cases hmoved with
    | skip hmoved =>
      refine (ih hfits.2.2 scopes (by omega) line moved hmoved).within ?_
      rintro past events h ⟨hres, hline⟩
      exact ⟨Lowered.decl hkind hres, hline⟩
  | @declInit w id l init rest hkind hinit _ ihi ihr =>
    intro scopes hscopes line moved hmoved
    simp only [count_cons] at hscopes
    obtain ⟨c, lc, kc, rfl⟩ := hinit.one_eq_tree
    cases hmoved with
    | @move _ _ _ _ _ _ moved pop assign hpop hassign hmoved =>
      -- The variable has become an assignment in a statement of its own.
      have hassignment : L.Passes config room i scopes (fun _ => True)
          (.tree assign (.ofKind .setName)
          (.cons id (l.withKind .bindName) .nil (.tree c lc kc))) _ _ :=
        .setName rfl rfl rfl (ihi hfits.2.1 scopes (by omega)) trivial
      have hstatement : L.Passes config room i scopes (fun _ => True)
          (.tree pop ((Node.ofKind .pop).withLine line) _) _ _ := .quiet rfl hassignment trivial
      refine (hstatement.append (ihr hfits.2.2 scopes (by omega) line moved hmoved)).within ?_
      rintro past _ _ ⟨_, events', _, hr, rfl, rfl,
        ⟨_, rfl, events, rfl, hi, rfl, hres⟩, hres', hline⟩
      rw [Site.met_nameEvents] at hres
      rw [met_append, Site.met_nameEvents] at hres'
      rw [List.append_assoc]
      refine ⟨Lowered.declInit hkind hpop hassign hres hres', ?_⟩
      show ∀ n ∈ (Node.ofKind .pop).withLine line :: hr.rootsOf .pop, n.line = line
      rintro n (_ | ⟨_, hn⟩)
      exacts [rfl, hline n hn]

/-! ## All bodies -/

variable {s : LoweringState} {j : BodyId} {fuel : Nat}

private theorem count_le_nodeCount (hj : j.index < L.size) :
    (L.kids j).count + 1 ≤ L.nodeCount := by
  have := Tree.length_le_size (t := L.program.tree) (nodes_nodup hj) fun q hq => nodes_lt hj hq
  rwa [nodes, List.length_cons, length_ids] at this

/-- The walk passes every body, whatever waits. -/
theorem passes_body (room : Nat) (hj : j.index < L.size) :
    L.Passes config room j [] (fun _ => True) (L.kids j) (L.lowers config j [] .list 0 (L.kids j))
      (L.weight * (L.kids j).count) := by
  induction room using Nat.strongRecOn generalizing j with
  | ind room ih =>
    have hbuilt : Built (L.site config j).marks .list 0 (L.kids j) :=
      L.built j hj 0 _ fun _ _ h => h
    have hcount := count_le_nodeCount hj
    refine (passes_of_built (fun body hbody room' hlt => ih room' hlt hbody) hbuilt (L.fits j)
      [] ?_).mono
      (fun _ _ => by simp [Unlabelled]) (fun _ _ _ h => h) (Nat.le_refl _)
    rw [List.length_nil]
    omega

/-- One body after the other. -/
theorem runs_lowerBody (hs : L.Sound s) (hj : j.index < L.size)
    (hfuel : L.weight * L.nodeCount ≤ fuel) :
    Runs (lowerBody config fuel j) s fun _ s1 => L.Covers config s s1 ∧ ¬ s1.Waits j ∧
      L.Tells config .script { s.ledger with hasFinally := false } [.function j]
        { s1.ledger with hasFinally := false } := by
  by_cases hw : s.Waits j
  · have hpend := pending_start hw hj (fun k hk => (waits_starting hk).1) (not_waits_starting s j)
    have hle := L.pending_le s
    obtain ⟨need, s1, h, inside, c, hneed, hbody, hcover, hlow, htells, hledger⟩ :=
      lowersBody config hs hw (passes_body _ hj) (Nat.le_refl _)
    have hmul : L.weight * (L.kids j).count + L.weight * L.pending (s.starting j) ≤
        L.weight * L.nodeCount := by
      rw [← Nat.mul_add]
      exact Nat.mul_le_mul_left _ (by omega)
    have hrun : (lowerBody config fuel j).run s = .ok ((), s1) := by
      show (if (!s.started.getD j.index false) = true then _ else _ : LowerM Unit).run s = _
      rw [hw.started_eq]
      exact hbody fuel (by omega)
    refine ⟨(), s1, hrun, hcover, fun hw1 => ?_, ?_⟩
    · have hstart : s1.started = c.started := congrArg Ledger.started hledger
      rw [LoweringState.Waits, hstart] at hw1
      exact (Tells.waits_start (htells.waits hw1)).2 rfl
    · have hfinish : { s1.ledger with hasFinally := false } = c.finish j false := by
        rw [hledger]
        rfl
      rw [hfinish]
      exact .first hj hw hlow htells .nil
  · have hstarted := LoweringState.started_of_not_waits (by rwa [hs.started_size]) hw
    refine ⟨(), s, ?_, .refl hs, hw, .again hj hw .nil⟩
    show (if (!s.started.getD j.index false) = true then _ else _ : LowerM Unit).run s = _
    rw [hstarted]
    rfl

private theorem runs_lowerBodies (config : Config) (bodies : List BodyId) (hs : L.Sound s)
    (hbodies : ∀ j ∈ bodies, j.index < L.size) (hfuel : L.weight * L.nodeCount ≤ fuel) :
    Runs (bodies.forM (lowerBody config fuel)) s fun _ s1 => L.Covers config s s1 ∧
      (∀ j ∈ bodies, ¬ s1.Waits j) ∧
      L.Tells config .script { s.ledger with hasFinally := false } (bodies.map .function)
        { s1.ledger with hasFinally := false } := by
  induction bodies generalizing s with
  | nil => exact Runs.pure ⟨.refl hs, by simp, .nil⟩
  | cons j rest ih =>
    rw [List.forM_eq_forM, List.forM_cons]
    refine Runs.bind (runs_lowerBody hs (hbodies j (by simp)) hfuel) ?_
    rintro _ s1 ⟨hc, hj, htells⟩
    refine (ih hc.sound fun k hk => hbodies k (by simp [hk])).mono ?_
    rintro _ s2 ⟨hc', hrest, htells'⟩
    refine ⟨hc.trans hc' hs, ?_, htells.append htells'⟩
    rintro k (_ | ⟨_, hk⟩)
    exacts [fun hw => hj (hc'.waits _ hw), hrest k hk]

/-- The state before the first body. -/
def start (L : Layout) (config : Config) : LoweringState where
  program := L.program
  diagnostics := { limit := some config.maxDiagnostics }
  started := Array.replicate L.program.bodies.size false
  body := { id := .script, inFunction := false }

private theorem sound_start (L : Layout) (config : Config) : L.Sound (L.start config) :=
  ⟨L.linked, L.acyclic, Nat.le_refl _, rfl, fun _ => rfl, by simp [start, size],
    fun j hj => stands_root (by
      have hsome := (Array.getElem?_eq_some_iff.mp hj).1
      simpa [start, size] using hsome)⟩

/-- All bodies wait at first. -/
theorem waits_start_ledger {j : BodyId} : (L.start config).ledger.Waits j ↔ j.index < L.size := by
  show (Array.replicate L.size false)[j.index]? = some false ↔ _
  simp [Array.getElem?_replicate]

/-- The bodies have been taken up one after the other, from the start. -/
def TellsAll (L : Layout) (config : Config) (b : Ledger) : Prop :=
  L.Tells config .script (L.start config).ledger ((List.range L.size).map fun n => .function ⟨n⟩) b

variable (L config) in
/-- Lowering succeeds, every body is done, and the events of the bodies account for what is known of
them. -/
theorem lower_eq : ∃ s, L.program.lower config = .ok (s.program, s.diagnostics) ∧ L.Sound s ∧
    (∀ j : BodyId, j.index < L.size → L.Done config s j L.nodeCount) ∧
    L.TellsAll config { s.ledger with hasFinally := false } := by
  have hfuel : L.weight * L.nodeCount ≤ walkFuel L.program :=
    Nat.mul_le_mul (Nat.le_refl _) (Nat.le_add_right _ _)
  obtain ⟨_, s, hrun, hcover, hnone, htells⟩ := runs_lowerBodies config
    ((List.range L.size).map BodyId.mk) (L.sound_start config) (by simp) hfuel
  refine ⟨s, ?_, hcover.sound, fun j hj => ?_, ?_⟩
  · show ((((List.range L.size).map BodyId.mk).forM (lowerBody config
      (walkFuel L.program))).run (L.start config) >>= _) = _
    rw [hrun]
    rfl
  · have hwaits : (L.start config).ledger.Waits j := waits_start_ledger.mpr hj
    exact hcover.done j hwaits (hnone j (by simpa using ⟨j.index, hj, rfl⟩))
  · rw [List.map_map] at htells
    exact htells

end Layout

end ScriptEngine
