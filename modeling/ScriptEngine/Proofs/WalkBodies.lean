import ScriptEngine.Proofs.WalkLabels

/-!
# Bodies are lowered

A body is taken up, its statements are passed, and it is finished: if it has turned out to need an
activation record, the accesses by slot are undone. A function that is met in another body is
lowered there and then, unless it has been taken up before.
-/

namespace ScriptEngine

variable {p node id : NodeId} {body : BodyId} {fuel : Nat} {scopes : List Scope}

open Lowering

/-- The state in which a body has been taken up. -/
def LoweringState.starting (s : LoweringState) (j : BodyId) : LoweringState :=
  { s with
    started := s.started.setIfInBounds j.index true
    body := { id := j, inFunction := (s.program.body j).isFunction } }

namespace Layout

variable {L : Layout} {config : Config} {s s1 s2 : LoweringState} {i j : BodyId} {q : NodeId}
  {before after : List NodeId} {f h k cut : Forest} {l : Node} {changes : List SlotChange}
  {events : List Event} {room budget : Nat}

/-! ## Taking up a body -/

/-- Only other bodies wait behind the start of one. -/
theorem waits_starting (hw : (s.starting j).Waits i) : s.Waits i ∧ i ≠ j :=
  Tells.waits_start (a := s.ledger) hw

theorem not_waits_starting (s : LoweringState) (j : BodyId) : ¬ (s.starting j).Waits j :=
  fun hw => (waits_starting hw).2 rfl

private theorem waits_starting_of_ne (hw : s.Waits i) (hne : i ≠ j) : (s.starting j).Waits i :=
  (Tells.waits_start_iff (a := s.ledger)).mpr ⟨hw, hne⟩

private theorem Sound.starting (hs : L.Sound s) (j : BodyId) : L.Sound (s.starting j) :=
  { hs with
    started_size := by simpa [LoweringState.starting] using hs.started_size
    waiting := fun k hk => hs.waiting k (waits_starting hk).1 }

private theorem place_starting (hs : L.Sound s) (hj : s.Waits j) : L.Place (s.starting j) j [] :=
  ⟨hs.starting j, hs.waits_lt hj, not_waits_starting s j, rfl,
    Body.congr_frozen Body.isFunction (hs.body_eq j) fun _ => rfl, rfl, by simp, by simp, by simp⟩

private theorem held_starting (hs : L.Sound s) (hj : s.Waits j) :
    L.Held (s.starting j) [] (L.root j) (L.kids j) := by
  have hst := hs.waiting j hj
  have hlt := hs.waits_lt hj
  have hnodup := nodes_nodup hlt
  have hclear : ∀ q ∈ L.nodes j, L.Clear (s.starting j) q := fun q hq =>
    (hs.starting j).clear_of_mem hlt (not_waits_starting s j) hq
  rw [nodes, List.nodup_cons] at hnodup
  exact ⟨hst.1.1.1, hclear _ (by simp [nodes]), hst.1.2.1,
    fun q hq => hclear q (by simp [nodes, hq]), hnodup.2, hnodup.1, by simp⟩

/-! ## Finishing a body -/

/-- What stands in the place of the statements of a body is below its root, and no node is in it
twice or in what has been cut away. -/
theorem Landing.stands_root
    (hl : L.Landing config j (L.root j) [] [] (L.kids j) h k changes cut events s s1)
    (hs : L.Sound s) (hj : j.index < L.size) (htaken : ¬ s.Waits j)
    (hst : s.tree.Stands (.tree (L.root j) l (L.kids j))) :
    s1.tree.Stands (.tree (L.root j) l k) ∧ (L.root j :: (k.ids ++ cut.ids)).Nodup := by
  obtain ⟨⟨⟨hb, hlabel, hc⟩, hk, -⟩, horphan⟩ := hst
  have hnodup := nodes_nodup hj
  rw [nodes, List.nodup_cons] at hnodup
  have hclear : L.Clear s (L.root j) := hs.clear_of_mem hj htaken (by simp [nodes])
  have hstand : s1.tree.Stands (.tree (L.root j) l k) := by
    refine ⟨⟨⟨Nat.lt_of_lt_of_le hb hl.stretch.size_le, ?_, by simpa using hl.list_eq⟩, hl.spells,
      trivial⟩, fun r hr q hq => ?_⟩
    · rw [hl.stretch.label_eq _ hb hnodup.1 hclear, hlabel]
    · obtain rfl : r = L.root j := by simpa using hr
      exact horphan _ (by simp) q (hl.stretch.parents q _ hb hnodup.1 hclear hq)
  have hkroot := hl.stretch.sound.linked.nodup_of_stands hstand (by simp)
  simp only [Forest.ids_cons, Forest.ids_nil, List.append_nil, List.nodup_cons] at hkroot
  have hrootcut : ∀ q, q ∈ (L.kids j).ids ∨ s.tree.size ≤ q.index → q ≠ L.root j := by
    rintro q (hq | hq) rfl
    · exact hnodup.1 hq
    · omega
  have hdis : ∀ q ∈ (Forest.tree (L.root j) l k).ids, q ∉ cut.ids := by
    refine hl.stretch.sound.linked.disjoint_of_stands hstand hl.cut_stands fun r hr hr' => ?_
    obtain rfl : r = L.root j := by simpa using hr
    exact hrootcut _ (hl.cut_ids _ (cut.roots_subset_ids hr')) rfl
  refine ⟨hstand, List.nodup_cons.mpr ⟨fun hin => ?_,
    List.nodup_append.mpr ⟨hkroot.2, hl.cut_nodup, ?_⟩⟩⟩
  · rcases List.mem_append.mp hin with hin | hin
    · exact hkroot.1 hin
    · exact hrootcut _ (hl.cut_ids _ hin) rfl
  · rintro q hq _ hq' rfl
    exact hdis q (by simp [hq]) hq'

/-- A body that has been passed is finished: its accesses by slot are undone if it needs an
activation record. -/
theorem runs_finishBody
    (hl : L.Landing config j (L.root j) [] [] (L.kids j) h k changes cut events s s1)
    (hs : L.Sound s) (hj : j.index < L.size) (htaken : ¬ s.Waits j)
    (hst : s.tree.Stands (.tree (L.root j) l (L.kids j))) (hid : s1.body.id = j)
    (hchanges : s1.body.changes = changes) :
    Runs finishBody s1 fun _ s2 =>
      s2.ledger = s1.ledger.finish j s1.body.hasFinally ∧
      s1.tree.Edits (k.ids ++ cut.ids) (L.root j) s2.tree ∧
      ∃ k', s2.tree.Stands (.tree (L.root j) l k') ∧ (∀ q ∈ k'.ids, q ∈ k.ids ++ cut.ids) ∧
        k' = if (s1.program.body j).requiresActivation then h else k := by
  obtain ⟨hstand, hnodup⟩ := hl.stands_root hs hj htaken hst
  have hrootnot := (List.nodup_cons.mp hnodup).1
  refine runs_openBody (Runs.get_bind ?_)
  rw [hid, hchanges]
  refine Runs.ite_bind (p := fun _ s2 => ∃ t, s2 = s1.withTree t ∧
    (s1.tree.Edits (k.ids ++ cut.ids) (L.root j) t ∧ ∃ k', t.Stands (.tree (L.root j) l k') ∧
      (∀ q ∈ k'.ids, q ∈ k.ids ++ cut.ids) ∧
      k' = if (s1.program.body j).requiresActivation then h else k) ∧
    t.clauses = s1.tree.clauses) ?_ ?_
  · split
    · have H : (⟨s1.tree, L.root j, [], k.ids ++ cut.ids, []⟩ : Plot).Has s1.tree.clauses s1.tree
          (.nil ++ (k ++ .nil)) (cut ++ .nil) :=
        ⟨.refl hl.stretch.sound.linked, rfl, by simpa using hl.list_eq, by simpa using hl.spells,
          by simpa using hl.cut_stands, fun q hq => .inl (by simpa using hq),
          by simpa using (List.nodup_cons.mp hnodup).2, hstand.1.1.1, hrootnot⟩
      refine runs_onTree ((hl.slotted.reverts .nil .nil rfl H).mono ?_)
      rintro _ t ⟨g', H'⟩
      simp only [Forest.nil_append, Forest.append_nil] at H'
      have he : s1.tree.Edits (k.ids ++ cut.ids) (L.root j) t := H'.edits
      have hlist : t.children (L.root j) = [] ++ h.roots ++ [] := H'.list_eq
      refine ⟨⟨he, h, ⟨⟨⟨Nat.lt_of_lt_of_le hstand.1.1.1 he.size_le, ?_,
        by simpa using hlist⟩, H'.spells,
        trivial⟩, fun r hr q hq => ?_⟩, fun q hq => ?_, rfl⟩, H'.clauses_eq⟩
      · rw [he.label_eq _ hstand.1.1.1 hrootnot, hstand.1.1.2.1]
      · obtain rfl : r = L.root j := by simpa using hr
        exact hstand.2 _ (by simp) q (he.parents q _ hstand.1.1.1 hrootnot hq)
      · exact List.mem_append.mpr (hl.slotted.mem_ids hq)
    · exact Runs.pure ⟨s1.tree, rfl, ⟨.refl hl.stretch.sound.linked, k, hstand,
        fun q hq => List.mem_append_left _ hq, rfl⟩, rfl⟩
  · rintro _ ⟨t, rfl, ⟨he, k', hk', hids, hif⟩, hclauses⟩
    refine Runs.modify ⟨?_, he, k', hk', hids, hif⟩
    show Ledger.mk s1.started _ s1.diagnostics s1.body.hasFinally t.clauses = _
    rw [hclauses]
    rfl

/-! ## Lowering a body -/

/-- Between two states, only bodies that waited have changed; those that wait no longer are done. -/
structure Covers (L : Layout) (config : Config) (s s' : LoweringState) : Prop where
  sound : L.Sound s'
  size_le : s.tree.size ≤ s'.tree.size
  label_eq : ∀ q, q.index < s.tree.size → L.Clear s q → s'.tree.label q = s.tree.label q
  children_eq : ∀ q, q.index < s.tree.size → L.Clear s q →
    s'.tree.children q = s.tree.children q
  parents : ∀ q c, c.index < s.tree.size → L.Clear s c → c ∈ s'.tree.children q →
    c ∈ s.tree.children q
  waits : ∀ k, s'.Waits k → s.Waits k
  done : ∀ k, s.Waits k → ¬ s'.Waits k → L.Done config s' k s.tree.size
  activation : ∀ k, ¬ s.Waits k →
    (s'.program.body k).requiresActivation = (s.program.body k).requiresActivation

/-- Work at nodes apart from a body that is done leaves it done. -/
theorem Done.edits {first : Nat} {own : List NodeId} (hd : L.Done config s j first)
    (he : s.tree.Edits own p s1.tree)
    (hflag : (s1.program.body j).requiresActivation = (s.program.body j).requiresActivation)
    (hown : ∀ l k, s.tree.Stands (.tree (L.root j) l k) →
      ∀ q ∈ (Forest.tree (L.root j) l k).ids, q ∉ p :: own) : L.Done config s1 j first := by
  obtain ⟨h, k, events, hst, hids, hlow, hslots⟩ := hd
  have hout := hown _ k hst
  exact ⟨h, k, events, he.stands hst (fun q hq hin => hout q hq (.tail _ hin))
    fun hin => hout p hin (.head _), hids, hlow, by rwa [hflag]⟩

private theorem body_ledger (s : LoweringState) (j : BodyId) :
    s.ledger.body j = s.program.body j := rfl

/-- A body has been taken up, passed and finished. -/
theorem covers_body
    (hl : L.Landing config j (L.root j) [] [] (L.kids j) h k changes cut events (s.starting j) s1)
    (hs : L.Sound s) (hw : s.Waits j)
    (hlow : Lowered (L.site config j) [] .list 0 false (L.kids j) h events)
    (hledger : s2.ledger = s1.ledger.finish j s1.body.hasFinally)
    (he : s1.tree.Edits (k.ids ++ cut.ids) (L.root j) s2.tree) {k' : Forest}
    (hstand : s2.tree.Stands (.tree (L.root j) (L.rootLabel j) k'))
    (hids : ∀ q ∈ k'.ids, q ∈ k.ids ++ cut.ids)
    (hif : k' = if (s1.program.body j).requiresActivation then h else k) :
    L.Covers config s s2 := by
  have hj := hs.waits_lt hw
  have hs1 := hs.starting j
  have htaken := not_waits_starting s j
  have hstarted : s2.started = s1.started := congrArg Ledger.started hledger
  have hwaits : ∀ m, s2.Waits m → s1.Waits m := fun m hm => by
    rwa [LoweringState.Waits, hstarted] at hm
  have hflag (m : BodyId) : (s2.program.body m).requiresActivation =
      (s1.program.body m).requiresActivation := by
    rw [← body_ledger, hledger, Ledger.activation_finish]
    rfl
  obtain ⟨hstand1, hnodup⟩ := hl.stands_root hs1 hj htaken (hs.waiting j hw)
  -- A node that is clear of the bodies that wait has nothing to do with this one.
  have hown : ∀ q ∈ k.ids ++ cut.ids, q ∈ (L.kids j).ids ∨ s.tree.size ≤ q.index := fun q hq =>
    (List.mem_append.mp hq).elim (hl.ids q) (hl.cut_ids q)
  have hclear : ∀ q, q.index < s.tree.size → L.Clear s q → q ∉ (L.kids j).ids ∧ q ≠ L.root j ∧
      L.Clear (s.starting j) q ∧ q ∉ k.ids ++ cut.ids := by
    intro q hq hc
    have hnot := hc j hw
    rw [nodes, List.mem_cons, not_or] at hnot
    refine ⟨hnot.2, hnot.1, hc.mono fun m hm => (waits_starting hm).1, fun hin => ?_⟩
    rcases hown q hin with hin | hge
    · exact hnot.2 hin
    · omega
  have hle := hl.stretch.size_le
  have hapart : ∀ m, m ≠ j → m.index < L.size → ∀ l' kk, s1.tree.Stands (.tree (L.root m) l' kk) →
      ∀ q ∈ (Forest.tree (L.root m) l' kk).ids, q ∉ L.root j :: (k.ids ++ cut.ids) := by
    intro m hne hm l' kk hst' q hq hin
    have hroots : L.root m ∉ L.nodes j := nodes_disjoint hm hj hne (by simp [nodes])
    have hlinked := hl.stretch.sound.linked
    have hin' : q ∈ (Forest.tree (L.root j) (L.rootLabel j) k).ids ∨ q ∈ cut.ids := by
      simpa [or_assoc] using hin
    rcases hin' with hin | hin
    · refine hlinked.disjoint_of_stands hst' hstand1 (fun r hr hr' => hroots ?_) q hq hin
      obtain rfl : r = L.root m := by simpa using hr
      rw [nodes, List.mem_cons]
      exact .inl (by simpa using hr')
    · refine hlinked.disjoint_of_stands hst' hl.cut_stands (fun r hr hr' => ?_) q hq hin
      obtain rfl : r = L.root m := by simpa using hr
      rcases hl.cut_ids _ (cut.roots_subset_ids hr') with hin | hge
      · exact hroots (by simp [nodes, hin])
      · have hlt := nodes_lt (q := L.root m) hm (by simp [nodes])
        have hsize : L.nodeCount ≤ s.tree.size := hs.size_le
        have hge' : s.tree.size ≤ (L.root m).index := hge
        omega
  have hsound : L.Sound s2 := by
    have hsnd := hl.stretch.sound
    refine ⟨he.linked, he.acyclic hsnd.acyclic, Nat.le_trans hsnd.size_le he.size_le, ?_,
      fun m => ?_, ?_, fun m hm => ?_⟩
    · exact ((congrArg (·.bodies.size) hledger).trans Ledger.size_finish).trans hsnd.bodies_size
    · rw [← body_ledger, hledger, Ledger.frozen_finish]
      exact hsnd.body_eq m
    · rw [hstarted, hsnd.started_size]
    · have hm1 := hwaits m hm
      have hst' := hsnd.waiting m hm1
      have hout := hapart m (waits_starting (hl.stretch.waits m hm1)).2 (hsnd.waits_lt hm1) _ _ hst'
      exact he.stands hst' (fun q hq hin => hout q hq (.tail _ hin)) fun hin => hout _ hin (.head _)
  refine ⟨hsound, Nat.le_trans hle he.size_le, fun q hq hc => ?_, fun q hq hc => ?_,
    fun q c hc hcl hmem => ?_, fun m hm => (waits_starting (hl.stretch.waits m (hwaits m hm))).1,
    fun m hm hnot => ?_, fun m hm => ?_⟩
  · obtain ⟨hkids, -, hc1, hout⟩ := hclear q hq hc
    rw [he.label_eq q (Nat.lt_of_lt_of_le hq hle) hout, hl.stretch.label_eq q hq hkids hc1]
    rfl
  · obtain ⟨hkids, hroot, hc1, hout⟩ := hclear q hq hc
    rw [he.children_eq q (Nat.lt_of_lt_of_le hq hle) hout hroot,
      hl.stretch.children_eq q hq hkids hc1 hroot]
    rfl
  · obtain ⟨hkids, -, hc1, hout⟩ := hclear c hc hcl
    exact hl.stretch.parents q c hc hkids hc1 (he.parents q c (Nat.lt_of_lt_of_le hc hle) hout hmem)
  · by_cases hmj : m = j
    · subst hmj
      refine ⟨h, k', events, hstand, fun q hq => ?_, hlow, ?_⟩
      · exact (hown q (hids q hq)).imp_left fun hin => by simp [nodes, hin]
      · rw [hflag]
        split
        · next ha => rw [hif, if_pos ha]
        · next ha =>
          rw [hif, if_neg ha]
          exact ⟨changes, cut, hl.slotted.relax fun hfun => ⟨hfun, by simpa using ha⟩⟩
    · have hnot1 : ¬ s1.Waits m := fun hm1 => hnot (by rwa [LoweringState.Waits, hstarted])
      exact (hl.stretch.done m (waits_starting_of_ne hm hmj) hnot1).edits he (hflag m)
        (hapart m hmj (hs.waits_lt hm))
  · have hmj : m ≠ j := by
      rintro rfl
      exact hm hw
    exact (hflag m).trans (hl.stretch.tells.activation_eq hmj fun hm' => hm (waits_starting hm').1)

theorem Covers.refl (hs : L.Sound s) : L.Covers config s s :=
  ⟨hs, Nat.le_refl _, fun _ _ _ => rfl, fun _ _ _ => rfl, fun _ _ _ _ h => h, fun _ h => h,
    fun _ hk hnot => absurd hk hnot, fun _ _ => rfl⟩

/-- One lowered body after another. -/
theorem Covers.trans (hc : L.Covers config s s1) (hc' : L.Covers config s1 s2) (hs : L.Sound s) :
    L.Covers config s s2 := by
  have hle := hc.size_le
  have hclear : ∀ q, L.Clear s q → L.Clear s1 q := fun q hq => hq.mono hc.waits
  refine ⟨hc'.sound, Nat.le_trans hle hc'.size_le, fun q hq hcl => ?_, fun q hq hcl => ?_,
    fun q c hq hcl hmem => ?_, fun m hm => hc.waits m (hc'.waits m hm), fun m hm hnot => ?_,
    fun m hm => ?_⟩
  · rw [hc'.label_eq q (by omega) (hclear q hcl), hc.label_eq q hq hcl]
  · rw [hc'.children_eq q (by omega) (hclear q hcl), hc.children_eq q hq hcl]
  · exact hc.parents q c hq hcl (hc'.parents q c (by omega) (hclear c hcl) hmem)
  · by_cases hm1 : s1.Waits m
    · exact (hc'.done m hm1 hnot).mono hle
    · -- The body is done in between, and its nodes are in none that waits.
      obtain ⟨h, k, events, hst, hids, hlow, hslots⟩ := hc.done m hm hm1
      have hout : ∀ q ∈ (Forest.tree (L.root m) (L.rootLabel m) k).ids, L.Clear s1 q := by
        intro q hq
        simp only [Forest.ids_cons, Forest.ids_nil, List.append_nil, List.mem_cons] at hq
        have hmem : q ∈ L.nodes m ∨ s.tree.size ≤ q.index := by
          rcases hq with rfl | hq
          exacts [.inl (by simp [nodes]), hids q hq]
        rcases hmem with hmem | hge
        · exact hc.sound.clear_of_mem (hs.waits_lt hm) hm1 hmem
        · exact hc.sound.clear_of_le (Nat.le_trans hs.size_le hge)
      refine ⟨h, k, events, ⟨hst.1.congr hc'.size_le fun q hq =>
        ⟨hc'.label_eq q (hst.1.bound hq) (hout q hq),
        hc'.children_eq q (hst.1.bound hq) (hout q hq)⟩, fun r hr q hq => ?_⟩, hids, hlow, ?_⟩
      · have hrin := (Forest.tree (L.root m) (L.rootLabel m) k).roots_subset_ids hr
        exact hst.2 r hr q (hc'.parents q r (hst.1.bound hrin) (hout r hrin) hq)
      · rw [hc'.activation m hm1]
        exact hslots
  · exact (hc'.activation m fun hm' => hm (hc.waits m hm')).trans (hc.activation m hm)

/-- A body that waits is lowered. -/
theorem lowersBody (config : Config) (hs : L.Sound s) (hw : s.Waits j)
    (hbody : L.Passes config room j [] (fun _ => True) (L.kids j)
      (L.lowers config j [] .list 0 (L.kids j)) budget)
    (hroom : L.pending (s.starting j) ≤ room) :
    ∃ need s2 h events c, need ≤ budget + L.weight * L.pending (s.starting j) ∧
      (∀ fuel, need ≤ fuel → (do
        walk config fuel (s.program.body j).root (s.tree.firstChild? (s.program.body j).root)
        finishBody : LowerM Unit).run (s.starting j) = .ok ((), s2)) ∧
      L.Covers config s s2 ∧
      Lowered (L.site config j) [] .list 0 false (L.kids j) h events ∧
      L.Tells config j (s.ledger.start j) events c ∧
      s2.ledger = c.finish j c.hasFinally := by
  have hst := hs.waiting j hw
  have hj := hs.waits_lt hw
  have hp := place_starting hs hw
  have hh := held_starting hs hw
  have hroot : (s.program.body j).root = L.root j :=
    Body.congr_frozen Body.root (hs.body_eq j) fun _ => rfl
  have hlist : (s.starting j).tree.children (L.root j) = [] ++ (L.kids j).roots ++ [] := by
    rw [List.nil_append, List.append_nil]
    exact hst.1.1.2.2
  obtain ⟨s1, h, k, changes, cut, events, need, cost, hrun, hcost, hneed, hl, -, hlow⟩ :=
    hbody _ _ [] [] hp hh hroom trivial hlist
  obtain ⟨_, s2, hrun2, hledger, he, k', hstand, hids, hif⟩ :=
    runs_finishBody hl hp.sound hj hp.taken
    hst (hl.stretch.id_eq.trans rfl) (by simpa [LoweringState.starting] using hl.changes_eq)
  refine ⟨need + cost, s2, h, events, s1.ledger, by omega, fun fuel hfuel => ?_,
    covers_body hl hs hw hlow hledger he hstand hids hif, hlow, hl.stretch.tells, hledger⟩
  obtain ⟨extra, rfl⟩ := Nat.exists_eq_add_of_le hfuel
  have hfirst : s.tree.firstChild? (L.root j) = ((L.kids j).roots ++ []).head? := by
    rw [hs.linked.firstChild?_eq, hst.1.1.2.2, List.append_nil]
  have hwalk : (walk config (need + cost + extra) (L.root j)
      (s.tree.firstChild? (L.root j))).run (s.starting j) = .ok ((), s1) := by
    rw [hfirst, show need + cost + extra = need + extra + cost by omega, hrun _ (by omega)]
    exact walk_none
  rw [hroot, StateT.run_bind, hwalk]
  exact hrun2

/-! ## Nodes that stand for functions -/

/-- What is noted at the node of another body, before its function is lowered. -/
def flagEvents (L : Layout) (i body : BodyId) : List Event :=
  if (L.program.body i).isFunction then [.activation, .receiver body] else []

private theorem functionEvents_eq (L : Layout) (config : Config) (hne : body ≠ i) :
    (L.site config i).functionEvents body = L.flagEvents i body ++ [.function body] := by
  rw [Site.functionEvents, if_neg (show ¬ body = (L.site config i).body from hne), flagEvents]
  show (if (L.program.body i).isFunction then _ else _) = _
  split <;> rfl

/-- A node of a function notes what the function needs of the body around it. -/
theorem runs_lowerFunctionNode (hp : L.Place s i scopes) (hl : s.tree.label id = l)
    (hdata : l.data = .function body) (hlt : body.index < L.size) :
    Runs (lowerFunctionNode id) s fun visit s1 =>
      (body = i ∧ visit = .done id ∧ s1 = s) ∨
      (body ≠ i ∧ visit = .function id body ∧ s.Still i (L.flagEvents i body) s1) := by
  refine runs_openBody (runs_tree ?_)
  have hfun : s.tree.function? id = some body := by
    rw [Tree.function?_eq_label, hl, Node.function?, hdata]
  rw [hfun, hp.body_id]
  dsimp only
  split
  · next heq => exact Runs.pure (.inl ⟨heq, rfl, rfl⟩)
  · next hne =>
    refine Runs.bind (runs_requireActivation L {} hp.body_id hp.inFunction) fun _ s1 hs1 => ?_
    refine Runs.get_bind ?_
    have hcheck : s1.program.checkBody body = .ok () := by
      have hsize : s1.program.bodies.size = L.size :=
        (hs1.follows.tells L {}).size_eq.trans hp.sound.bodies_size
      rw [Program.checkBody, if_pos (by rw [hsize]; exact hlt)]
    refine Runs.lift_bind hcheck ?_
    rw [hp.inFunction, flagEvents]
    have hact := hs1.follows
    rw [Site.activations, show (L.site {} i).inFunction = (L.program.body i).isFunction from rfl]
      at hact
    split
    · next hin =>
      rw [if_pos hin] at hact
      refine Runs.modify_bind (Runs.pure (.inr ⟨hne, rfl, ?_, hs1.tree_eq, hs1.body_eq⟩))
      have hreceiver : s1.Follows i [.receiver body] { s1 with
          program := s1.program.modifyBody body ({ · with checkThis := true }) } :=
            ⟨by simp, rfl, rfl, rfl⟩
      exact hact.trans hreceiver
    · next hin =>
      rw [if_neg hin] at hact
      exact Runs.pure (.inr ⟨hne, rfl, hact, hs1.tree_eq, hs1.body_eq⟩)

/-- A leaf has been passed without a change to the tree around the bodies that waited. -/
theorem landing_leaf (hst : L.Stretch config i events [] p s s1)
    (hh : L.Held s scopes p (.leaf id l)) (hlist : s.tree.children p = before ++ id :: after)
    (hlist1 : s1.tree.children p = s.tree.children p) (hkind : l.kind = .function)
    (hchanges : s1.body.changes = s.body.changes) :
    L.Landing config i p before after (.leaf id l) (.leaf id l)
    (.leaf id l) [] .nil events s s1 := by
  refine ⟨hst.mono (by simp) (.inl rfl), by simpa [hlist1] using hlist, ?_, fun q hq => .inl hq,
    .keep (keeps_of_kind _ (by simp [hkind])) .nil .nil,
    Tree.stands_nil _, by simp, by simp, hchanges⟩
  exact hst.spells hh.spells (fun q hq => ⟨by simp, hh.clear q hq⟩) hh.parent_not

/-- The state in which lowering goes on with the body around a function. -/
theorem Covers.stretch {s3 : LoweringState} {c : Ledger} {inside : List Event}
    (hc : L.Covers config s s2) (hj : j.index < L.size) (hw : s.Waits j)
    (hlow : Lowered (L.site config j) [] .list 0 false (L.kids j) h inside)
    (htells : L.Tells config j (s.ledger.start j) inside c)
    (hledger : s2.ledger = c.finish j c.hasFinally) (hs3 : s3 = { s2 with body := s.body }) :
    L.Stretch config i [.function j] [] p s s3 := by
  subst hs3
  refine ⟨⟨hc.sound.linked, hc.sound.acyclic, hc.sound.size_le, hc.sound.bodies_size,
    hc.sound.body_eq,
    hc.sound.started_size, hc.sound.waiting⟩, hc.size_le, fun q hq _ => hc.label_eq q hq,
    fun q hq _ hcl _ => hc.children_eq q hq hcl, fun q c hcs _ => hc.parents q c hcs,
    hc.done, ?_, rfl, rfl⟩
  have hfinish : ({ s2 with body := s.body } : LoweringState).ledger =
      c.finish j s.ledger.hasFinally := by
    show { s2.ledger with hasFinally := s.body.hasFinally } = _
    rw [hledger]
    rfl
  rw [hfinish]
  exact .first hj hw hlow htells .nil

/-- A function that has been taken up is passed over. -/
theorem walk_function_again (hrun : (lowerNode config p node).run s = .ok (.function id j, s1))
    (hstarted : s1.started.getD j.index false = true) :
    (walk config (fuel + 1) p (some node)).run s =
      (walk config fuel p (s1.tree.next? id)).run s1 := by
  rw [walk, StateT.run_bind, hrun]
  show (if (!s1.started.getD j.index false) = true then _ else _ : LowerM Unit).run s1 = _
  rw [hstarted]
  rfl

/-- A function that waits is lowered before the walk goes on. -/
theorem walk_function_first
    (hrun : (lowerNode config p node).run s = .ok (.function id j, s1))
    (hstarted : s1.started.getD j.index false = false) (hbody : (do
      walk config fuel (s1.program.body j).root (s1.tree.firstChild? (s1.program.body j).root)
      finishBody : LowerM Unit).run (s1.starting j) = .ok ((), s2)) :
    (walk config (fuel + 1) p (some node)).run s =
      (walk config fuel p (s2.tree.next? id)).run { s2 with body := s1.body } := by
  rw [walk, StateT.run_bind, hrun]
  show (if (!s1.started.getD j.index false) = true then _ else _ : LowerM Unit).run s1 = _
  rw [hstarted]
  show (do
    walk config fuel (s1.program.body j).root (s1.tree.firstChild? (s1.program.body j).root)
    finishBody
    modifyOpenBody fun _ => s1.body
    walk config fuel p ((← Lowering.tree).next? id) : LowerM Unit).run (s1.starting j) = _
  rw [← bind_assoc, StateT.run_bind, hbody]
  rfl

/-- Nodes that stand for functions. -/
theorem Passes.function {fits : List NodeId → Prop} (hkind : l.kind = .function)
    (hdata : l.data = .function body) (hlt : body.index < L.size)
    (hbodies : ∀ room' < room, L.Passes config room' body [] (fun _ => True) (L.kids body)
      (L.lowers config body [] .list 0 (L.kids body)) (L.weight * (L.kids body).count)) :
    L.Passes config room i scopes fits (.leaf id l) (fun _ events h =>
      events = (L.site config i).functionEvents body ∧ h = .leaf id l) 1 := by
  intro s p before after hp hh hroom _ hlist
  have hlist' : s.tree.children p = before ++ id :: after := by simpa using hlist
  have hl : s.tree.label id = l := hh.spells.1.2.1
  obtain ⟨visit, s1, hrun1, hcases⟩ := runs_lowerFunctionNode hp hl hdata hlt
  have hrun : (lowerNode config p id).run s = .ok (visit, s1) := by
    rw [lowerNode_run (by rw [Tree.kind_eq_label, hl, hkind])]
    exact hrun1
  rcases hcases with ⟨heq, rfl, rfl⟩ | ⟨hne, rfl, hs1⟩
  · -- A function in itself.
    refine .of_landing [] (by simp) (fun fuel => walk_done hrun)
      (landing_leaf (.refl hp.sound) hh hlist' rfl hkind rfl) rfl hp.regions ⟨?_, rfl⟩
    rw [Site.functionEvents, if_pos (show body = (L.site config i).body from heq)]
  have hst1 : L.Stretch config i (L.flagEvents i body) [] p s s1 := .of_edits hp.sound
    (by rw [hs1.tree_eq]; exact .refl hp.sound.linked) (by simpa using hh.parent_clear) hs1.follows
  have hwaits : ∀ k, s.Waits k → s1.Waits k := fun k hk => by
    rwa [LoweringState.Waits, hs1.follows.started_eq]
  have hevents := functionEvents_eq L config hne
  by_cases hw : s1.Waits body
  · -- The function is met for the first time.
    have hpend :=
      pending_start hw hlt (fun k hk => (waits_starting hk).1) (not_waits_starting s1 body)
    have hpend1 : L.pending s1 ≤ L.pending s := pending_mono hst1.waits
    obtain ⟨need, s2, h, inside, c, hneed, hbody, hcover, hlow, htells, hledger⟩ :=
      lowersBody config hst1.sound hw (hbodies _ (by omega)) (Nat.le_refl _)
    have hst2 : L.Stretch config i [.function body] [] p s1 { s2 with body := s1.body } :=
      hcover.stretch hlt hw hlow htells hledger rfl
    have hst : L.Stretch config i (L.flagEvents i body ++ [.function body]) [] p s
        { s2 with body := s1.body } :=
      hst1.trans hst2 hp.sound hp.taken (by simp) (.inl rfl) (by simp) (fun _ => .inl rfl)
        (by simpa using hh.parent_clear) (.inl hwaits)
    have hlist2 : s2.tree.children p = s.tree.children p := by
      have hpc : L.Clear s1 p := hh.parent_clear.mono hst1.waits
      rw [hcover.children_eq p (by rw [hs1.tree_eq]; exact hh.parent_lt) hpc, hs1.tree_eq]
    have hland := landing_leaf hst hh hlist' hlist2 hkind (by rw [hs1.body_eq])
    have hmul : L.weight * (L.kids body).count + L.weight * L.pending (s1.starting body) ≤
        L.weight * L.pending s := by
      rw [← Nat.mul_add]
      exact Nat.mul_le_mul_left _ (by omega)
    refine ⟨_, _, _, _, _, _, need, 1, fun fuel hfuel => ?_, Nat.le_refl _, by omega, hland,
      by rw [hs1.body_eq]; exact hp.regions, hevents.symm, rfl⟩
    have hnext : s2.tree.next? id = after.head? :=
      hcover.sound.linked.next?_of_children (hlist2.trans hlist')
    rw [show ((Forest.leaf id l).roots ++ after).head? = some id from rfl,
      walk_function_first hrun hw.started_eq (hbody fuel hfuel), hnext]
  · -- The function has been taken up before.
    have htells : L.Tells config i s1.ledger [.function body] s1.ledger := .again hlt hw .nil
    have hst : L.Stretch config i (L.flagEvents i body ++ [.function body]) [] p s s1 :=
      { hst1 with tells := hst1.tells.append htells }
    have hland := landing_leaf hst hh hlist' (by rw [hs1.tree_eq]) hkind (by rw [hs1.body_eq])
    have hstarted := LoweringState.started_of_not_waits (by rwa [hst1.sound.started_size]) hw
    exact .of_landing (s := s) []
      (show ((Forest.leaf id l).roots ++ after).head? = some id from rfl)
      (fun fuel => walk_function_again hrun hstarted) hland rfl
      (by rw [hs1.body_eq]; exact hp.regions) ⟨hevents.symm, rfl⟩

end Layout

end ScriptEngine
