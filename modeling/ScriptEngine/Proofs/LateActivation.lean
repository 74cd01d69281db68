import Mathlib.Logic.Equiv.Basic
import ScriptEngine.Proofs.RecordedClauses
import ScriptEngine.Proofs.RenamedSlots

/-!
# Late activations

That a function needs an activation record may turn out late, after accesses to its variables have
been changed to accesses by slot. These changes are undone then. To see that they leave no trace,
the program is lowered once as it is, and once with the activation records noted beforehand: what is
noted in the ledger is the same, and the bodies differ in the names of new nodes alone.
-/

namespace ScriptEngine

variable {flags : BodyId → Bool} {a : Ledger} {i j : BodyId} {L : Layout} {config : Config}
  {ρ : NodeId → NodeId} {f : Body → Body} {s' : LoweringState}

/-! ## Activation records noted beforehand -/

/-- Notes that the body needs an activation record, if it is a function. -/
def Body.preset (flag : Bool) (b : Body) : Body :=
  if b.isFunction && flag then { b with requiresActivation := true } else b

/-- Notes which functions need an activation record. -/
def presetBodies (flags : BodyId → Bool) (bodies : Array Body) : Array Body :=
  bodies.mapIdx fun i b => b.preset (flags ⟨i⟩)

/-- Notes which functions need an activation record. -/
def Program.preset (p : Program) (flags : BodyId → Bool) : Program :=
  { p with bodies := presetBodies flags p.bodies }

def Ledger.preset (a : Ledger) (flags : BodyId → Bool) : Ledger :=
  { a with bodies := presetBodies flags a.bodies }

private theorem Body.frozen_preset (flag : Bool) (b : Body) :
    (b.preset flag).frozen = b.frozen := by
  unfold preset
  split <;> rfl

private theorem Body.preset_self (b : Body) : b.preset b.requiresActivation = b := by
  unfold preset
  split
  · next h =>
    obtain ⟨-, hflag⟩ := Bool.and_eq_true_iff.mp h
    cases b
    simp_all
  · rfl

/-- A change that has nothing to do with activation records, or asks for one. -/
theorem Body.preset_comm (hfun : ∀ b, (f b).isFunction = b.isFunction)
    (hflag : ∀ b : Body, f { b with requiresActivation := true } =
      { f b with requiresActivation := true }) (flag : Bool) (b : Body) :
    (f b).preset flag = f (b.preset flag) := by
  rw [preset, preset, hfun]
  split
  · exact (hflag b).symm
  · rfl

@[simp] theorem size_presetBodies (bodies : Array Body) :
    (presetBodies flags bodies).size = bodies.size := by
  simp [presetBodies]

/-- What is noted beforehand about one body. -/
theorem getD_presetBodies (bodies : Array Body) (j : BodyId) :
    (presetBodies flags bodies).getD j.index default =
      (bodies.getD j.index default).preset (flags j) := by
  rw [presetBodies, Array.getD_eq_getD_getElem?, Array.getD_eq_getD_getElem?, Array.getElem?_mapIdx]
  cases bodies[j.index]? with
  | some b => rfl
  | none => rfl

/-- Notes of what is known already change nothing. -/
theorem presetBodies_self {bodies : Array Body}
    (h : ∀ j : BodyId, flags j = (bodies.getD j.index default).requiresActivation) :
    presetBodies flags bodies = bodies := by
  refine Array.ext_getElem? fun k => ?_
  rw [presetBodies, Array.getElem?_mapIdx]
  cases hk : bodies[k]? with
  | none => rfl
  | some b =>
    have hflag : flags ⟨k⟩ = b.requiresActivation := by
      rw [h, Array.getD_eq_getD_getElem?, hk, Option.getD_some]
    rw [Option.map_some, hflag, Body.preset_self]

private theorem presetBodies_modify (bodies : Array Body) (i : Nat)
    (hf : ∀ flag b, (f b).preset flag = f (b.preset flag)) :
    presetBodies flags (bodies.modify i f) = (presetBodies flags bodies).modify i f := by
  refine Array.ext_getElem? fun k => ?_
  simp only [presetBodies, Array.getElem?_mapIdx, Array.getElem?_modify]
  split
  · cases bodies[k]? <;> simp [hf]
  · rfl

namespace Ledger

variable {e : Event}

private theorem body_preset : (a.preset flags).body j = (a.body j).preset (flags j) :=
  getD_presetBodies a.bodies j

private theorem preset_modify (hf : ∀ flag b, (f b).preset flag = f (b.preset flag)) :
    (a.modify i f).preset flags = (a.preset flags).modify i f := by
  rw [preset, modify, presetBodies_modify _ _ hf]
  rfl

private theorem preset_apply : (a.apply i e).preset flags = (a.preset flags).apply i e := by
  cases e with
  | complaint line error =>
    have hsource : ((a.preset flags).body i).sourceName = (a.body i).sourceName := by
      rw [body_preset]
      exact Body.congr_frozen Body.sourceName (Body.frozen_preset _ _) fun _ => rfl
    rw [apply, apply, hsource]
    rfl
  | activation | attempt | receiver =>
    exact preset_modify (Body.preset_comm (fun _ => rfl) fun _ => rfl)
  | guard | function | clause => rfl

private theorem preset_finish {b : Bool} :
    (a.finish j b).preset flags = (a.preset flags).finish j b := by
  have hmodify : (a.modify j fun b => { b with hasFinally := b.hasFinally || a.hasFinally }).preset
      flags = (a.preset flags).modify j fun b =>
        { b with hasFinally := b.hasFinally || a.hasFinally } :=
    preset_modify (Body.preset_comm (fun _ => rfl) fun _ => rfl)
  exact congrArg (fun c : Ledger => { c with hasFinally := b }) hmodify

end Ledger

namespace Layout

variable {b b' : Ledger} {events : List Event}

private theorem frozen_preset (p : Program) (flags : BodyId → Bool) (j : BodyId) :
    ((p.preset flags).body j).frozen = (p.body j).frozen := by
  have hbody : (p.preset flags).body j = (p.body j).preset (flags j) :=
    getD_presetBodies p.bodies j
  rw [hbody, Body.frozen_preset]

private theorem limits_preset (p : Program) (flags : BodyId → Bool) (j : BodyId) :
    (p.preset flags).limits j = p.limits j := by
  have hregexps : ((p.preset flags).body j).regexps = (p.body j).regexps :=
    Body.congr_frozen Body.regexps (frozen_preset p flags j) fun _ => rfl
  rw [Program.limits, Program.limits, hregexps]
  simp [Program.preset]

private theorem root_preset (p : Program) (flags : BodyId → Bool) (j : BodyId) :
    ((p.preset flags).body j).root = (p.body j).root :=
  Body.congr_frozen Body.root (frozen_preset p flags j) fun _ => rfl

/-- The program with activation records noted beforehand has the same layout. -/
def preset (L : Layout) (flags : BodyId → Bool) : Layout where
  program := L.program.preset flags
  kids := L.kids
  linked := L.linked
  acyclic := L.acyclic
  root_inj i j hi hj := by
    rw [root_preset, root_preset]
    exact L.root_inj i j (by simpa [Program.preset] using hi) (by simpa [Program.preset] using hj)
  stands j hj := by
    rw [root_preset]
    exact L.stands j (by simpa [Program.preset] using hj)
  built j hj := L.built j (by simpa [Program.preset] using hj)
  fits j := by
    rw [limits_preset]
    exact L.fits j

@[simp] theorem size_preset : (L.preset flags).size = L.size := by
  simp [size, preset, Program.preset]

private theorem site_preset (flags : BodyId → Bool) :
    (L.preset flags).site config j = L.site config j := by
  have hfun : ((L.program.preset flags).body j).isFunction = (L.program.body j).isFunction :=
    Body.congr_frozen Body.isFunction (frozen_preset L.program flags j) fun _ => rfl
  show Site.mk config _ j ((L.program.preset flags).body j).isFunction L.nodeCount = _
  rw [hfun]
  rfl

/-- The events of a body account for the same changes, whatever is noted beforehand. -/
theorem Tells.preset (h : L.Tells config i a events b) (flags : BodyId → Bool) :
    (L.preset flags).Tells config i (a.preset flags) events (b.preset flags) := by
  induction h with
  | nil => exact .nil
  | own hown _ ih =>
    rw [Ledger.preset_apply] at ih
    exact .own hown ih
  | again hj hnot _ ih => exact .again (by rwa [size_preset]) hnot ih
  | first hj hwaits hlowered _ _ ih ih' =>
    rw [Ledger.preset_finish] at ih'
    rw [← site_preset flags] at hlowered
    exact .first (by rwa [size_preset]) hwaits hlowered ih ih'

/-- The events of a body account for one change only. -/
theorem Tells.unique (hset : ∀ j : BodyId, j.index < L.size → (L.kids j).Settled L.nodeCount)
    (h : L.Tells config i a events b) (h' : L.Tells config i a events b') : b' = b := by
  induction h generalizing b' with
  | nil =>
    cases h'
    rfl
  | own hown _ ih =>
    cases h' with
    | own _ hrest' => exact ih hrest'
    | again | first => exact absurd rfl (hown _)
  | again _ hnot _ ih =>
    cases h' with
    | own hown => exact absurd rfl (hown _)
    | again _ _ hrest' => exact ih hrest'
    | first _ hwaits => exact absurd hwaits hnot
  | @first i a j h inside c rest b hj hwaits hlowered _ _ ih ih' =>
    cases h' with
    | own hown => exact absurd rfl (hown _)
    | again _ hnot => exact absurd hwaits hnot
    | first _ _ hlowered' hinside' hrest' =>
      -- A function that is met for the first time is lowered in one way.
      obtain ⟨rfl, -⟩ := hlowered.alike hlowered' rfl (hset j hj) nofun
      obtain rfl := ih hinside'
      exact ih' hrest'

end Layout

/-! ## Renamings -/

/-- A correspondence of nodes that keeps old ones extends to a renaming of all nodes. -/
theorem exists_renaming {first : Nat} {xs ys : List NodeId} (h : List.Forall₂ (Matches first) xs ys)
    (hxs : xs.Nodup) (hys : ys.Nodup) : ∃ ρ : Equiv.Perm NodeId, Fixes first ρ ∧ ys = xs.map ρ := by
  induction h with
  | nil => exact ⟨.refl _, fun _ _ => rfl, rfl⟩
  | @cons x y xs ys hxy _ ih =>
    rw [List.nodup_cons] at hxs hys
    obtain ⟨ρ, hfix, rfl⟩ := ih hxs.2 hys.2
    -- The renaming of the rest, corrected at the first node.
    refine ⟨ρ.trans (Equiv.swap (ρ x) y), fun q hq => ?_, ?_⟩
    · rw [Equiv.trans_apply, hfix q hq]
      by_cases hx : x.index < first
      · have hy : y = x := hxy.resolve_right fun hnew => by omega
        rw [hfix x hx, hy, Equiv.swap_self]
        rfl
      · refine Equiv.swap_apply_of_ne_of_ne (fun he => ?_) fun he => ?_
        · rw [← hfix q hq] at he
          rw [ρ.injective he] at hq
          exact hx hq
        · rcases hxy with rfl | hnew
          · exact hx (he ▸ hq)
          · rw [he] at hq
            omega
    · rw [List.map_cons, Equiv.trans_apply, Equiv.swap_apply_left, List.cons.injEq]
      refine ⟨rfl, List.map_congr_left fun q hq => (Equiv.swap_apply_of_ne_of_ne ?_ ?_).symm⟩
      · intro he
        exact hxs.1 (ρ.injective he ▸ hq)
      · intro he
        exact hys.1 (he ▸ List.mem_map_of_mem hq)

/-- Lists side by side correspond one by one. -/
theorem flatMap_eq_map {f g : Nat → List NodeId} {ns : List Nat}
    (hlen : ∀ n ∈ ns, (g n).length = (f n).length) (h : ns.flatMap g = (ns.flatMap f).map ρ) :
    ∀ n ∈ ns, g n = (f n).map ρ := by
  induction ns with
  | nil => simp
  | cons n ns ih =>
    rw [List.flatMap_cons, List.flatMap_cons, List.map_append] at h
    obtain ⟨hfirst, hrest⟩ := List.append_inj h (by simpa using hlen n (by simp))
    rintro m (_ | ⟨_, hm⟩)
    exacts [hfirst, ih (fun k hk => hlen k (by simp [hk])) hrest m hm]

/-! ## Bodies -/

namespace Layout

variable {s : LoweringState}

/-- No node stands in two bodies that are lowered. -/
theorem Sound.nodup_statements (hs : L.Sound s)
    (hdone : ∀ j : BodyId, j.index < L.size → L.Done config s j L.nodeCount) :
    ((List.range L.size).flatMap fun n => (s.program.statements ⟨n⟩).ids).Nodup := by
  rw [List.nodup_flatMap]
  refine ⟨fun n hn => (hdone ⟨n⟩ (List.mem_range.mp hn)).statements_nodup hs, ?_⟩
  refine List.Pairwise.imp_of_mem (R := fun m n => m ≠ n) ?_ List.nodup_range
  intro m n hm hn hne q hqm hqn
  have hst := (hdone ⟨m⟩ (List.mem_range.mp hm)).stands hs
  have hst' := (hdone ⟨n⟩ (List.mem_range.mp hn)).stands hs
  refine hs.linked.disjoint_of_stands hst hst' (fun r hr hr' => hne ?_) q
    (by simp [hqm]) (by simp [hqn])
  simp only [Forest.roots_cons, Forest.roots_nil, List.mem_singleton] at hr hr'
  have hroot : L.root ⟨m⟩ = L.root ⟨n⟩ := hr.symm.trans hr'
  simpa using L.root_inj ⟨m⟩ ⟨n⟩ (List.mem_range.mp hm) (List.mem_range.mp hn) hroot

/-- What a body is lowered to, with and without activation records noted beforehand. -/
theorem Done.alike (hs : L.Sound s) (hs' : (L.preset flags).Sound s') (hj : j.index < L.size)
    (hd : L.Done config s j L.nodeCount) (hd' : (L.preset flags).Done config s' j L.nodeCount)
    (hset : (L.kids j).Settled L.nodeCount) (hbody : s'.program.body j = s.program.body j) :
    (s.program.statements j).Alike L.nodeCount (Fixes L.nodeCount) (s'.program.statements j) := by
  obtain ⟨h, events, hlow, hslots⟩ := hd.bySlots hs hj
  obtain ⟨h', events', hlow', hslots'⟩ := hd'.bySlots hs' (by rwa [size_preset])
  rw [site_preset] at hlow'
  have halike : h.Alike L.nodeCount (Fixes L.nodeCount) h' :=
    (hlow.alike hlow' rfl hset nofun).2.given fun ρ hρ _ => ⟨hρ, rfl⟩
  rw [hbody] at hslots'
  split at hslots
  · next hlocal =>
    rw [if_pos hlocal] at hslots'
    obtain ⟨c, hc, heq⟩ := hslots
    obtain ⟨c', hc', heq'⟩ := hslots'
    rw [heq, heq']
    exact halike.bySlots (fun _ hρ => hρ) (hlow.deletesOld hset) hc hc'
  · next hlocal =>
    rw [if_neg hlocal] at hslots'
    rwa [hslots, hslots']

/-- The statements of all bodies differ by one renaming. -/
theorem exists_renaming_statements (hs : L.Sound s) (hs' : (L.preset flags).Sound s')
    (hdone : ∀ j : BodyId, j.index < L.size → L.Done config s j L.nodeCount)
    (hdone' : ∀ j : BodyId, j.index < L.size → (L.preset flags).Done config s' j L.nodeCount)
    (hset : ∀ j : BodyId, j.index < L.size → (L.kids j).Settled L.nodeCount)
    (hbody : ∀ j, s'.program.body j = s.program.body j) :
    ∃ ρ : Equiv.Perm NodeId, Fixes L.nodeCount ρ ∧ ∀ j : BodyId, j.index < L.size →
      s'.program.statements j = (s.program.statements j).rename ρ := by
  have halike (j : BodyId) (hj : j.index < L.size) :=
    (hdone j hj).alike hs hs' hj (hdone' j hj) (hset j hj) (hbody j)
  have hnodup' := hs'.nodup_statements fun j hj => hdone' j (by rwa [size_preset] at hj)
  rw [size_preset] at hnodup'
  have hmatch : List.Forall₂ (Matches L.nodeCount)
      ((List.range L.size).flatMap fun n => (s.program.statements ⟨n⟩).ids)
      ((List.range L.size).flatMap fun n => (s'.program.statements ⟨n⟩).ids) := by
    have hall : ∀ ns : List Nat, (∀ n ∈ ns, n < L.size) → List.Forall₂ (Matches L.nodeCount)
        (ns.flatMap fun n => (s.program.statements ⟨n⟩).ids)
        (ns.flatMap fun n => (s'.program.statements ⟨n⟩).ids) := by
      intro ns hns
      induction ns with
      | nil => exact .nil
      | cons n ns ih =>
        exact List.rel_append (halike ⟨n⟩ (hns n (by simp))).twin.forall_ids
          (ih fun m hm => hns m (by simp [hm]))
    exact hall _ fun n hn => List.mem_range.mp hn
  obtain ⟨ρ, hfix, heq⟩ := exists_renaming hmatch (hs.nodup_statements hdone) hnodup'
  refine ⟨ρ, hfix, fun j hj => (halike j hj).eq_rename ρ hfix ?_⟩
  exact flatMap_eq_map (fun n hn => (halike ⟨n⟩ (List.mem_range.mp hn)).length_eq) heq j.index
    (List.mem_range.mpr hj)

/-- The nodes of a body, with and without activation records noted beforehand. -/
theorem Done.node_eq_rename (hs : L.Sound s)
    (hs' : (L.preset flags).Sound s') (hj : j.index < L.size) (hd : L.Done config s j L.nodeCount)
    (hd' : (L.preset flags).Done config s' j L.nodeCount) (hraw : L.program.tree.Raw)
    (hfix : Fixes L.nodeCount ρ)
    (hstatements : s'.program.statements j = (s.program.statements j).rename ρ)
    (hclauses : ∀ q, s'.tree.clauses (ρ q) = (s.tree.clauses q).rename ρ) {q : NodeId}
    (hq : q ∈ L.root j :: (s.program.statements j).ids) :
    (s'.tree.node (ρ q)).detached = (s.tree.node q).detached.rename ρ ∧
      s'.tree.children (ρ q) = (s.tree.children q).map ρ := by
  have hst := hd.stands hs
  have hst' := hd'.stands hs'
  -- The root of the body is old, and so are the nodes that it refers to.
  have hrenamed : Forest.tree ((L.preset flags).root j) ((L.preset flags).rootLabel j)
      (s'.program.statements j) =
        (Forest.tree (L.root j) (L.rootLabel j) (s.program.statements j)).rename ρ := by
    have hroot : (L.preset flags).root j = L.root j := root_preset L.program flags j
    have hlabel : (L.preset flags).rootLabel j = L.rootLabel j :=
      congrArg L.program.tree.label hroot
    have hfixed : (L.rootLabel j).rename ρ = L.rootLabel j :=
      (hraw (L.root j)).refers.label.fixed ρ hfix
    rw [hroot, hlabel, hstatements, Forest.tree, Forest.tree, Forest.rename, Forest.rename, hfixed,
      hfix (L.root j) (nodes_lt hj (by simp [nodes]))]
  rw [hrenamed] at hst'
  obtain ⟨hlabels, hchildren⟩ := hst.1.rename hst'.1 (by simpa using hq)
  exact ⟨Node.detached_eq_rename hlabels (hclauses q), hchildren⟩

variable (L config) in
/-- Lowering with activation records noted beforehand that turn out to be needed anyway. -/
theorem lower_preset (hraw : L.program.tree.Raw) :
    ∃ p1 p2 diagnostics, ∃ ρ : Equiv.Perm NodeId,
      L.program.lower config = .ok (p1, diagnostics) ∧
      (L.program.preset fun j => (p1.body j).requiresActivation).lower config =
        .ok (p2, diagnostics) ∧ p2.bodies = p1.bodies ∧ Fixes L.nodeCount ρ ∧
      ∀ j : BodyId, j.index < L.size → p2.statements j = (p1.statements j).rename ρ ∧
        ∀ q ∈ L.root j :: (p1.statements j).ids,
          (p2.tree.node (ρ q)).detached = (p1.tree.node q).detached.rename ρ ∧
          p2.tree.children (ρ q) = (p1.tree.children q).map ρ := by
  have hset (j : BodyId) (hj : j.index < L.size) : (L.kids j).Settled L.nodeCount := by
    obtain ⟨l, hst⟩ := L.stands j hj
    exact (hst.1.settled hraw).2.1
  obtain ⟨s, hlower, hs, hdone, htells⟩ := L.lower_eq config
  let flags : BodyId → Bool := fun j => (s.program.body j).requiresActivation
  obtain ⟨s', hlower', hs', hdone', htells'⟩ := (L.preset flags).lower_eq config
  -- Both runs start from ledgers that differ in the notes alone, and end with the same one.
  have hstart : ((L.preset flags).start config).ledger = (L.start config).ledger.preset flags := by
    show Ledger.mk (Array.replicate (presetBodies flags L.program.bodies).size false) _ _ _ _ = _
    rw [size_presetBodies]
    rfl
  have hend : ({ s.ledger with hasFinally := false } : Ledger).preset flags =
      { s.ledger with hasFinally := false } := by
    have hbodies : presetBodies flags s.program.bodies = s.program.bodies :=
      presetBodies_self fun _ => rfl
    exact congrArg (Ledger.mk s.started · s.diagnostics false s.tree.clauses) hbodies
  rw [TellsAll, hstart, size_preset] at htells'
  have hset' (j : BodyId) (hj : j.index < (L.preset flags).size) :
      ((L.preset flags).kids j).Settled (L.preset flags).nodeCount :=
    hset j (by rwa [size_preset] at hj)
  have hledger := Tells.unique hset' (htells.preset flags) htells'
  rw [hend] at hledger
  have hbodies : s'.program.bodies = s.program.bodies := congrArg Ledger.bodies hledger
  have hdiagnostics : s'.diagnostics = s.diagnostics := congrArg Ledger.diagnostics hledger
  have hclauses : s'.tree.clauses = s.tree.clauses := congrArg Ledger.clauses hledger
  have hold : s.ledger.ClausesOld L.nodeCount :=
    htells.clausesOld (clausesOld_start config hraw) (by simp [Event.RecordsOld])
  obtain ⟨ρ, hfix, hall⟩ := exists_renaming_statements hs hs' hdone
    (fun j hj => hdone' j (by rwa [size_preset])) hset fun j => by
      rw [Program.body, Program.body, hbodies]
  refine ⟨s.program, s'.program, s.diagnostics, ρ, hlower, hdiagnostics ▸ hlower', hbodies, hfix,
    fun j hj => ⟨hall j hj, fun q hq => ?_⟩⟩
  refine (hdone j hj).node_eq_rename hs hs' hj (hdone' j (by rwa [size_preset])) hraw hfix
    (hall j hj) (fun q => ?_) hq
  rw [hclauses]
  exact hold.rename_eq hfix ρ.injective q

end Layout

/-! ## Programs -/

/-- That a function needs an activation record may turn out late. Take a program, and the same
program in which the functions that turn out to need one when it is lowered have this noted
beforehand. Lowering complains of the same in both, knows the same of the bodies in the end, and
gives the same trees but for the names of nodes that it has made: all that a node says besides its
links, and its children. -/
theorem late_activation_leaves_no_trace {script : Document.Script} {fallback : Option String}
    {p : Program} (hops : script.usesOperators)
    (hbuild : Document.build script fallback = .ok (.ok p)) (config : Config) :
    ∃ p₁ p₂ diagnostics, ∃ ρ : NodeId → NodeId, p.lower config = .ok (p₁, diagnostics) ∧
      (p.preset fun j => (p₁.body j).requiresActivation).lower config = .ok (p₂, diagnostics) ∧
      p₂.bodies = p₁.bodies ∧ Function.Injective ρ ∧
      (∀ q : NodeId, q.index < p.tree.size → ρ q = q) ∧
      ∀ j : BodyId, j.index < p.bodies.size → p₂.statements j = (p₁.statements j).rename ρ ∧
        ∀ q ∈ (p.body j).root :: (p₁.statements j).ids,
          (p₂.tree.node (ρ q)).detached = (p₁.tree.node q).detached.rename ρ ∧
          p₂.tree.children (ρ q) = (p₁.tree.children q).map ρ := by
  obtain ⟨hframed, -⟩ := Document.build_framed hops hbuild
  obtain ⟨L, rfl⟩ := hframed.exists_layout
  obtain ⟨p₁, p₂, diagnostics, ρ, hlower, hlower', hbodies, hfix, hall⟩ :=
    L.lower_preset config hframed.raw
  exact ⟨p₁, p₂, diagnostics, ρ, hlower, hlower', hbodies, ρ.injective, hfix, hall⟩

/-- A function that deletes a variable, has a switch, and only then reads its arguments. The
constant for the deletion has been made in vain, so the break target of the switch has another
name. -/
theorem late_activation_leaves_no_trace_of_switch :
    let script : Document.Script := ⟨none, [.function (.mk "f" ["a"] [
      .expr (.delete (.name "a")) 1, .switch (.name "a") [
        .mk (some (.string "x")) [.expr (.assign (.name "a") .null) 3],
        .mk none [.expr (.name "a") 4]] 2,
      .expr (.name "arguments") 5] 1 6 none)], 6⟩
    ∃ p p₁ p₂ diagnostics, script.usesOperators = true ∧
      Document.build script none = .ok (.ok p) ∧ p.lower {} = .ok (p₁, diagnostics) ∧
      (p.preset fun j => (p₁.body j).requiresActivation).lower {} = .ok (p₂, diagnostics) ∧
      (p.body ⟨1⟩).requiresActivation = false ∧ (p₁.body ⟨1⟩).requiresActivation = true ∧
      (p₂.statements ⟨1⟩).ids ≠ (p₁.statements ⟨1⟩).ids ∧
      ∃ ρ : NodeId → NodeId, Function.Injective ρ ∧
        p₂.statements ⟨1⟩ = (p₁.statements ⟨1⟩).rename ρ ∧
        ∀ q ∈ (p.body ⟨1⟩).root :: (p₁.statements ⟨1⟩).ids,
          (p₂.tree.node (ρ q)).detached = (p₁.tree.node q).detached.rename ρ ∧
          p₂.tree.children (ρ q) = (p₁.tree.children q).map ρ := by
  intro script
  have hops : script.usesOperators = true := by decide
  have hmade : Document.buildsTo script none (fun p => (p.lower {}).toOption.any fun r =>
      decide (1 < p.bodies.size ∧ (p.body ⟨1⟩).requiresActivation = false ∧
        (r.1.body ⟨1⟩).requiresActivation = true) &&
      ((p.preset fun j => (r.1.body j).requiresActivation).lower {}).toOption.any fun r' =>
        decide ((r'.1.statements ⟨1⟩).ids ≠ (r.1.statements ⟨1⟩).ids)) = true := by
    decide +kernel
  obtain ⟨p, hbuild, htest⟩ := Document.exists_buildsTo hmade
  obtain ⟨p₁, p₂, diagnostics, ρ, hlower₁, hlower₂, -, hinj, -, hall⟩ :=
    late_activation_leaves_no_trace hops hbuild {}
  rw [hlower₁, Except.toOption, Option.any_some, Bool.and_eq_true, hlower₂] at htest
  obtain ⟨hsize, hbefore, hafter⟩ := of_decide_eq_true htest.1
  obtain ⟨hstatements, hnodes⟩ := hall ⟨1⟩ hsize
  exact ⟨p, p₁, p₂, diagnostics, hops, hbuild, hlower₁, hlower₂, hbefore, hafter,
    of_decide_eq_true htest.2, ρ, hinj, hstatements, hnodes⟩

end ScriptEngine
